import Mathlib.Algebra.Field.Basic
import Mathlib.Data.Fintype.Basic
import Mathlib.Algebra.CharP.Two
import Mathlib.Tactic.Ring

/-!
# The GF(2^8) tables of the erasure code (fec.rs:10-122)

The exponential and logarithm tables are filled by the loops of `build_exp_log`, the inverse and
product tables from these two.  The facts that single table entries have to satisfy are checked
over the 256 entries; that multiplication by the table is the multiplication of a field follows
from them, because a product is an iterate of the (xor-linear) multiplication by the generator.
-/

namespace Udpcast.Fec

/-- `GF_BITS` and `GF_SIZE` (fec.rs:10-11). -/
def gfBits : ℕ := 8
def gfSize : ℕ := 255

/-- The tables under construction in `build_exp_log`. -/
structure ExpLog where
  exp : List UInt8
  log : List ℕ
  deriving DecidableEq

/-- One turn of the first loop (fec.rs:31-39): `mask` runs through the powers of two, and the
bits of `PRIME` below x^8 are folded into `exp[8]`. -/
def lowPower (s : ExpLog × UInt8) (i : ℕ) : ExpLog × UInt8 :=
  let (t, mask) := s
  let exp := t.exp.set i mask
  let exp := if (0x11d : UInt16) &&& mask.toUInt16 ≠ 0
    then exp.set gfBits (exp.getD gfBits 0 ^^^ mask) else exp
  (⟨exp, t.log.set mask.toNat i⟩, mask <<< 1)

/-- One turn of the second loop (fec.rs:43-51). -/
def highPower (t : ExpLog) (i : ℕ) : ExpLog :=
  let prev := t.exp.getD (i - 1) 0
  let mask : UInt8 := (1 : UInt8) <<< 7
  let next := if prev ≥ mask then t.exp.getD gfBits 0 ^^^ ((prev ^^^ mask) <<< 1) else prev <<< 1
  ⟨t.exp.set i next, t.log.set next.toNat i⟩

/-- `build_exp_log` (fec.rs:24-55). -/
def buildExpLog : ExpLog :=
  let (t, _) := (List.range gfBits).foldl lowPower
    (⟨List.replicate 256 0, List.replicate 256 0⟩, 1)
  let t : ExpLog := ⟨t.exp, t.log.set (t.exp.getD gfBits 0).toNat gfBits⟩
  let t := ((List.range gfSize).drop (gfBits + 1)).foldl highPower t
  ⟨t.exp, t.log.set 0 gfSize⟩

def gfExp (i : ℕ) : UInt8 := buildExpLog.exp.getD i 0
def gfLog (x : UInt8) : ℕ := buildExpLog.log.getD x.toNat 0

/-- `build_inverse` (fec.rs:62-72). -/
def buildInverse : List UInt8 :=
  (List.range 256).map fun i =>
    if i = 0 then 0 else if i = 1 then 1 else gfExp (gfSize - gfLog (UInt8.ofNat i))

/-- `INVERSE[i]`; an index from 256 on is out of range. -/
def inverse (i : ℕ) : Option UInt8 := buildInverse[i]?

/-- `INVERSE[x as usize]` of a byte, which is never out of range. -/
def gfInv (x : UInt8) : UInt8 := buildInverse.getD x.toNat 0

/-- An entry of `GF_MUL_TABLE` (fec.rs:79-97): row 0 and column 0 are zeroed last. -/
def gfMulTable (n : ℕ) : UInt8 :=
  let i := n / 256
  let j := n % 256
  if i = 0 ∨ j = 0 then 0
  else gfExp ((gfLog (UInt8.ofNat i) + gfLog (UInt8.ofNat j)) % gfSize)

/-- `gf_mul` (fec.rs:111-113). -/
def gfMul (x y : UInt8) : UInt8 := gfMulTable ((x.toNat <<< 8) + y.toNat)

/-! ### The tables entry by entry -/

theorem buildExpLog_eq : buildExpLog = ⟨
    [1, 2, 4, 8, 16, 32, 64, 128, 29, 58, 116, 232, 205, 135, 19, 38, 76, 152, 45, 90, 180, 117,
    234, 201, 143, 3, 6, 12, 24, 48, 96, 192, 157, 39, 78, 156, 37, 74, 148, 53, 106, 212, 181,
    119, 238, 193, 159, 35, 70, 140, 5, 10, 20, 40, 80, 160, 93, 186, 105, 210, 185, 111, 222,
    161, 95, 190, 97, 194, 153, 47, 94, 188, 101, 202, 137, 15, 30, 60, 120, 240, 253, 231, 211,
    187, 107, 214, 177, 127, 254, 225, 223, 163, 91, 182, 113, 226, 217, 175, 67, 134, 17, 34, 68,
    136, 13, 26, 52, 104, 208, 189, 103, 206, 129, 31, 62, 124, 248, 237, 199, 147, 59, 118, 236,
    197, 151, 51, 102, 204, 133, 23, 46, 92, 184, 109, 218, 169, 79, 158, 33, 66, 132, 21, 42, 84,
    168, 77, 154, 41, 82, 164, 85, 170, 73, 146, 57, 114, 228, 213, 183, 115, 230, 209, 191, 99,
    198, 145, 63, 126, 252, 229, 215, 179, 123, 246, 241, 255, 227, 219, 171, 75, 150, 49, 98,
    196, 149, 55, 110, 220, 165, 87, 174, 65, 130, 25, 50, 100, 200, 141, 7, 14, 28, 56, 112, 224,
    221, 167, 83, 166, 81, 162, 89, 178, 121, 242, 249, 239, 195, 155, 43, 86, 172, 69, 138, 9,
    18, 36, 72, 144, 61, 122, 244, 245, 247, 243, 251, 235, 203, 139, 11, 22, 44, 88, 176, 125,
    250, 233, 207, 131, 27, 54, 108, 216, 173, 71, 142, 0],
    [255, 0, 1, 25, 2, 50, 26, 198, 3, 223, 51, 238, 27, 104, 199, 75, 4, 100, 224, 14, 52, 141,
    239, 129, 28, 193, 105, 248, 200, 8, 76, 113, 5, 138, 101, 47, 225, 36, 15, 33, 53, 147, 142,
    218, 240, 18, 130, 69, 29, 181, 194, 125, 106, 39, 249, 185, 201, 154, 9, 120, 77, 228, 114,
    166, 6, 191, 139, 98, 102, 221, 48, 253, 226, 152, 37, 179, 16, 145, 34, 136, 54, 208, 148,
    206, 143, 150, 219, 189, 241, 210, 19, 92, 131, 56, 70, 64, 30, 66, 182, 163, 195, 72, 126,
    110, 107, 58, 40, 84, 250, 133, 186, 61, 202, 94, 155, 159, 10, 21, 121, 43, 78, 212, 229,
    172, 115, 243, 167, 87, 7, 112, 192, 247, 140, 128, 99, 13, 103, 74, 222, 237, 49, 197, 254,
    24, 227, 165, 153, 119, 38, 184, 180, 124, 17, 68, 146, 217, 35, 32, 137, 46, 55, 63, 209, 91,
    149, 188, 207, 205, 144, 135, 151, 178, 220, 252, 190, 97, 242, 86, 211, 171, 20, 42, 93, 158,
    132, 60, 57, 83, 71, 109, 65, 162, 31, 45, 67, 216, 183, 123, 164, 118, 196, 23, 73, 236, 127,
    12, 111, 246, 108, 161, 59, 82, 41, 157, 85, 170, 251, 96, 134, 177, 187, 204, 62, 90, 203,
    89, 95, 176, 156, 169, 160, 81, 11, 245, 22, 235, 122, 117, 44, 215, 79, 174, 213, 233, 230,
    231, 173, 232, 116, 214, 244, 234, 168, 80, 88, 175]⟩ := by decide +kernel


/-- Multiplication by the generator, as the second loop does it. -/
def xtime (x : UInt8) : UInt8 :=
  if x ≥ 128 then 0x1d ^^^ ((x ^^^ 128) <<< (1 : UInt8)) else x <<< (1 : UInt8)

theorem gfExp_zero : gfExp 0 = 1 := by
  rw [gfExp, buildExpLog_eq]
  rfl

theorem gfExp_succ : ∀ i < 254, gfExp (i + 1) = xtime (gfExp i) := by
  unfold gfExp
  rw [buildExpLog_eq]
  decide +kernel

theorem xtime_gfExp_last : xtime (gfExp 254) = 1 := by
  rw [gfExp, buildExpLog_eq]
  decide +kernel

theorem gfLog_gfExp : ∀ i < 255, gfLog (gfExp i) = i ∧ gfExp i ≠ 0 := by
  unfold gfExp gfLog
  rw [buildExpLog_eq]
  decide +kernel

theorem gfExp_gfLog_ofNat : ∀ n < 256, UInt8.ofNat n ≠ 0 →
    gfLog (UInt8.ofNat n) < 255 ∧ gfExp (gfLog (UInt8.ofNat n)) = UInt8.ofNat n := by
  unfold gfExp gfLog
  rw [buildExpLog_eq]
  decide +kernel

theorem gfLog_lt {x : UInt8} (hx : x ≠ 0) : gfLog x < 255 := by
  have h := gfExp_gfLog_ofNat x.toNat x.toNat_lt
  rw [UInt8.ofNat_toNat] at h
  exact (h hx).1

theorem gfExp_gfLog {x : UInt8} (hx : x ≠ 0) : gfExp (gfLog x) = x := by
  have h := gfExp_gfLog_ofNat x.toNat x.toNat_lt
  rw [UInt8.ofNat_toNat] at h
  exact (h hx).2

theorem gfMul_eq (x y : UInt8) :
    gfMul x y = if x = 0 ∨ y = 0 then 0 else gfExp ((gfLog x + gfLog y) % 255) := by
  have hx := x.toNat_lt
  have hy := y.toNat_lt
  have hshift : x.toNat <<< 8 + y.toNat = x.toNat * 256 + y.toNat := by
    rw [Nat.shiftLeft_eq]
  have hdiv : (x.toNat * 256 + y.toNat) / 256 = x.toNat := by omega
  have hmod : (x.toNat * 256 + y.toNat) % 256 = y.toNat := by omega
  have hx0 : x.toNat = 0 ↔ x = 0 := by
    rw [← UInt8.toNat_inj, UInt8.toNat_zero]
  have hy0 : y.toNat = 0 ↔ y = 0 := by
    rw [← UInt8.toNat_inj, UInt8.toNat_zero]
  simp only [gfMul, gfMulTable, hshift, hdiv, hmod, UInt8.ofNat_toNat, hx0, hy0, gfSize]

/-! ### Multiplication by the generator is linear -/

theorem xtime_eq (x : UInt8) :
    xtime x = (x <<< (1 : UInt8)) ^^^ (if x ≥ 128 then 0x1d else 0) := by
  have h : ∀ n < 256, xtime (UInt8.ofNat n)
      = (UInt8.ofNat n <<< (1 : UInt8)) ^^^ (if UInt8.ofNat n ≥ 128 then 0x1d else 0) := by
    decide +kernel
  simpa using h x.toNat x.toNat_lt

theorem ge_128_iff (x : UInt8) : x ≥ 128 ↔ x.toBitVec.getLsbD 7 = true := by
  have h : ∀ n < 256, UInt8.ofNat n ≥ 128 ↔ (UInt8.ofNat n).toBitVec.getLsbD 7 = true := by
    decide +kernel
  simpa using h x.toNat x.toNat_lt

theorem xor_ge_128 (x y : UInt8) : x ^^^ y ≥ 128 ↔ ¬(x ≥ 128 ↔ y ≥ 128) := by
  rw [ge_128_iff, ge_128_iff, ge_128_iff, UInt8.toBitVec_xor, BitVec.getLsbD_xor]
  cases x.toBitVec.getLsbD 7 <;> cases y.toBitVec.getLsbD 7 <;> simp

theorem shiftLeft_one_xor (x y : UInt8) :
    (x ^^^ y) <<< (1 : UInt8) = (x <<< (1 : UInt8)) ^^^ (y <<< (1 : UInt8)) := by
  apply UInt8.toBitVec_inj.1
  simp [BitVec.shiftLeft_xor_distrib]

theorem xor_swap_middle (a b c d : UInt8) : (a ^^^ b) ^^^ (c ^^^ d) = (a ^^^ c) ^^^ (b ^^^ d) := by
  rw [UInt8.xor_assoc, UInt8.xor_assoc, ← UInt8.xor_assoc b c d, UInt8.xor_comm b c,
    UInt8.xor_assoc c b d]

theorem xtime_xor (x y : UInt8) : xtime (x ^^^ y) = xtime x ^^^ xtime y := by
  have hred : (if x ^^^ y ≥ 128 then (0x1d : UInt8) else 0)
      = (if x ≥ 128 then 0x1d else 0) ^^^ (if y ≥ 128 then 0x1d else 0) := by
    have h := xor_ge_128 x y
    by_cases hx : x ≥ 128 <;> by_cases hy : y ≥ 128 <;> simp [h, hx, hy]
  rw [xtime_eq, xtime_eq x, xtime_eq y, shiftLeft_one_xor, hred, xor_swap_middle]

theorem iterate_xtime_xor (n : ℕ) (x y : UInt8) :
    xtime^[n] (x ^^^ y) = xtime^[n] x ^^^ xtime^[n] y := by
  induction n generalizing x y with
  | zero => rfl
  | succ n ih => rw [Function.iterate_succ_apply, xtime_xor, ih]; rfl

theorem iterate_xtime_zero (n : ℕ) : xtime^[n] 0 = 0 := by
  induction n with
  | zero => rfl
  | succ n ih => exact ih

theorem iterate_xtime_one : ∀ n < 255, xtime^[n] 1 = gfExp n := by
  intro n
  induction n with
  | zero => intro _; rw [gfExp_zero]; rfl
  | succ n ih =>
    intro h
    rw [Function.iterate_succ_apply', ih (by omega), gfExp_succ n (by omega)]

theorem iterate_xtime_255 (y : UInt8) : xtime^[255] y = y := by
  have hone : xtime^[255] 1 = 1 := by
    rw [Function.iterate_succ_apply', iterate_xtime_one 254 (by omega), xtime_gfExp_last]
  by_cases hy : y = 0
  · rw [hy, iterate_xtime_zero]
  · rw [← gfExp_gfLog hy, ← iterate_xtime_one _ (gfLog_lt hy), ← Function.iterate_add_apply,
      Nat.add_comm, Function.iterate_add_apply, hone]

theorem iterate_xtime_mod (n : ℕ) (y : UInt8) : xtime^[n % 255] y = xtime^[n] y := by
  have hper : ∀ m z, xtime^[255 * m] z = z := by
    intro m
    induction m with
    | zero => intro z; rfl
    | succ m ih =>
      intro z
      rw [Nat.mul_succ, Function.iterate_add_apply, iterate_xtime_255, ih]
  conv_rhs => rw [← Nat.mod_add_div n 255, Function.iterate_add_apply, hper]

/-- A product by a nonzero factor is an iterate of the multiplication by the generator. -/
theorem gfMul_eq_iterate {x : UInt8} (hx : x ≠ 0) (y : UInt8) :
    gfMul x y = xtime^[gfLog x] y := by
  rw [gfMul_eq]
  by_cases hy : y = 0
  · simp [hy, iterate_xtime_zero]
  · rw [if_neg (by simp [hx, hy]), ← iterate_xtime_one _ (Nat.mod_lt _ (by omega)),
      iterate_xtime_mod, Function.iterate_add_apply, iterate_xtime_one _ (gfLog_lt hy),
      gfExp_gfLog hy]

/-! ### The field laws -/

theorem gfMul_zero_left (y : UInt8) : gfMul 0 y = 0 := by simp [gfMul_eq]

theorem gfMul_comm (x y : UInt8) : gfMul x y = gfMul y x := by
  simp only [gfMul_eq, Nat.add_comm (gfLog x), or_comm (a := x = 0)]

theorem gfMul_ne_zero {x y : UInt8} (hx : x ≠ 0) (hy : y ≠ 0) : gfMul x y ≠ 0 := by
  rw [gfMul_eq, if_neg (by simp [hx, hy])]
  exact (gfLog_gfExp _ (Nat.mod_lt _ (by omega))).2

theorem gfLog_gfMul {x y : UInt8} (hx : x ≠ 0) (hy : y ≠ 0) :
    gfLog (gfMul x y) = (gfLog x + gfLog y) % 255 := by
  rw [gfMul_eq, if_neg (by simp [hx, hy])]
  exact (gfLog_gfExp _ (Nat.mod_lt _ (by omega))).1

theorem gfMul_assoc (x y z : UInt8) : gfMul (gfMul x y) z = gfMul x (gfMul y z) := by
  by_cases hx : x = 0
  · simp [hx, gfMul_zero_left]
  · by_cases hy : y = 0
    · simp [hy, gfMul_zero_left, gfMul_comm x]
    · rw [gfMul_eq_iterate (gfMul_ne_zero hx hy), gfLog_gfMul hx hy, iterate_xtime_mod,
        Function.iterate_add_apply, gfMul_eq_iterate hx, gfMul_eq_iterate hy]

theorem gfMul_xor (x y z : UInt8) : gfMul x (y ^^^ z) = gfMul x y ^^^ gfMul x z := by
  by_cases hx : x = 0
  · simp [hx, gfMul_zero_left]
  · rw [gfMul_eq_iterate hx, gfMul_eq_iterate hx, gfMul_eq_iterate hx, iterate_xtime_xor]

theorem gfLog_one : gfLog 1 = 0 := by
  rw [← gfExp_zero]
  exact (gfLog_gfExp 0 (by omega)).1

theorem gfMul_one_left (y : UInt8) : gfMul 1 y = y := by
  rw [gfMul_eq_iterate (by decide), gfLog_one]
  rfl

theorem gfInv_eq (x : UInt8) : gfInv x =
    if x.toNat = 0 then 0 else if x.toNat = 1 then 1 else gfExp (gfSize - gfLog x) := by
  rw [gfInv, buildInverse, List.getD_eq_getElem?_getD, List.getElem?_map,
    List.getElem?_range x.toNat_lt]
  simp only [Option.map_some, Option.getD_some, UInt8.ofNat_toNat]

theorem inverse_of_lt {n : ℕ} (h : n < 256) : inverse n = some (gfInv (UInt8.ofNat n)) := by
  have hn : (UInt8.ofNat n).toNat = n := UInt8.toNat_ofNat_of_lt' h
  have hlen : buildInverse.length = 256 := by
    rw [buildInverse, List.length_map, List.length_range]
  rw [inverse, gfInv, hn, List.getD_eq_getElem?_getD, List.getElem?_eq_getElem (by omega)]
  rfl

theorem gfMul_gfInv {x : UInt8} (hx : x ≠ 0) : gfMul x (gfInv x) = 1 := by
  have hx0 : x.toNat ≠ 0 := by
    rw [ne_eq, ← UInt8.toNat_zero, UInt8.toNat_inj]
    exact hx
  by_cases h1 : x.toNat = 1
  · have : x = 1 := UInt8.toNat_inj.mp h1
    rw [this]
    exact gfMul_one_left 1
  · have hlog : gfLog x ≠ 0 := by
      intro h0
      have h := gfExp_gfLog hx
      rw [h0, gfExp_zero] at h
      exact h1 (by rw [← h]; rfl)
    have hlt := gfLog_lt hx
    have hinv := gfLog_gfExp (gfSize - gfLog x) (by simp only [gfSize]; omega)
    have hsum : (gfLog x + (gfSize - gfLog x)) % 255 = 0 := by
      have : gfLog x + (gfSize - gfLog x) = 255 := by simp only [gfSize]; omega
      rw [this]
    rw [gfInv_eq, if_neg hx0, if_neg h1, gfMul_eq, if_neg (by simp [hx, hinv.2]), hinv.1, hsum, gfExp_zero]

/-- A byte as an element of GF(2^8): addition is xor, multiplication is `gf_mul`. -/
@[ext] structure Gf256 where
  byte : UInt8
  deriving DecidableEq

namespace Gf256

instance : Zero Gf256 := ⟨⟨0⟩⟩
instance : One Gf256 := ⟨⟨1⟩⟩
instance : Add Gf256 := ⟨fun a b => ⟨a.byte ^^^ b.byte⟩⟩
instance : Neg Gf256 := ⟨fun a => a⟩
instance : Sub Gf256 := ⟨fun a b => ⟨a.byte ^^^ b.byte⟩⟩
instance : Mul Gf256 := ⟨fun a b => ⟨gfMul a.byte b.byte⟩⟩
instance : Inv Gf256 := ⟨fun a => ⟨gfInv a.byte⟩⟩

@[simp] theorem zero_byte : (0 : Gf256).byte = 0 := rfl
@[simp] theorem one_byte : (1 : Gf256).byte = 1 := rfl
@[simp] theorem add_byte (a b : Gf256) : (a + b).byte = a.byte ^^^ b.byte := rfl
@[simp] theorem neg_byte (a : Gf256) : (-a).byte = a.byte := rfl
@[simp] theorem sub_byte (a b : Gf256) : (a - b).byte = a.byte ^^^ b.byte := rfl
@[simp] theorem mul_byte (a b : Gf256) : (a * b).byte = gfMul a.byte b.byte := rfl
@[simp] theorem inv_byte (a : Gf256) : (a⁻¹).byte = gfInv a.byte := rfl

instance : CommRing Gf256 where
  add_assoc a b c := Gf256.ext (UInt8.xor_assoc _ _ _)
  zero_add a := Gf256.ext UInt8.zero_xor
  add_zero a := Gf256.ext UInt8.xor_zero
  add_comm a b := Gf256.ext (UInt8.xor_comm _ _)
  neg_add_cancel a := Gf256.ext UInt8.xor_self
  mul_assoc a b c := Gf256.ext (gfMul_assoc _ _ _)
  mul_comm a b := Gf256.ext (gfMul_comm _ _)
  one_mul a := Gf256.ext (gfMul_one_left _)
  mul_one a := Gf256.ext ((gfMul_comm _ _).trans (gfMul_one_left _))
  zero_mul a := Gf256.ext (gfMul_zero_left _)
  mul_zero a := Gf256.ext ((gfMul_comm _ _).trans (gfMul_zero_left _))
  left_distrib a b c := Gf256.ext (gfMul_xor _ _ _)
  right_distrib a b c := Gf256.ext (by
    simp only [mul_byte, add_byte, gfMul_comm _ c.byte, gfMul_xor])
  nsmul := nsmulRec
  zsmul := zsmulRec

instance : Field Gf256 where
  exists_pair_ne := ⟨0, 1, by decide⟩
  mul_inv_cancel a ha := Gf256.ext (gfMul_gfInv fun h => ha (Gf256.ext h))
  inv_zero := rfl
  nnqsmul := _
  qsmul := _

end Gf256

end Udpcast.Fec
