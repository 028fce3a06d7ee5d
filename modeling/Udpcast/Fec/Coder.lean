import Udpcast.Lib.Cauchy
import Udpcast.Lib.Fold
import Udpcast.Fec.InvertMat

/-!
# `fec_encode` and `fec_decode` (fec.rs:229-313)

A parity block is a linear combination of the data blocks of its stripe with the coefficients
`INVERSE[(128 + column) ^ row]`, a Cauchy matrix over GF(2^8).  Decoding subtracts the blocks that
are there from the parity blocks and solves the remaining square system with `invert_mat`.
An access out of range and a failed assertion abort the program; the result is then `none`.
-/

namespace Udpcast.Fec

open Matrix

/-- `addmul`, with the bounds checks of its loop. -/
def addmulChecked (dst src : List UInt8) (c : UInt8) (sz : ℕ) : Option (List UInt8) :=
  if c = 0 ∨ (sz ≤ dst.length ∧ sz ≤ src.length) then some (addmul dst src c sz) else none

/-- `mul`, with the bounds checks of its loop. -/
def mulChecked (dst src : List UInt8) (c : UInt8) (sz : ℕ) : Option (List UInt8) :=
  if sz ≤ dst.length ∧ (c = 0 ∨ sz ≤ src.length) then some (mul dst src c sz) else none

/-- `for row in 0..blocks.len() { op(row, blocks[row]) }` -/
def eachBlock (op : ℕ → List UInt8 → Option (List UInt8)) (blocks : List (List UInt8)) :
    Option (List (List UInt8)) :=
  blocks.zipIdx.mapM fun (b, row) => op row b

/-- `fec_encode` (fec.rs:229-249). -/
def fecEncode (blockSize : ℕ) (dataBlocks fecBlocks : List (List UInt8)) :
    Option (List (List UInt8)) :=
  if dataBlocks.length ≤ 128 ∧ fecBlocks.length ≤ 128 then
    match dataBlocks with
    | [] => some fecBlocks
    | first :: rest => do
      let fec ← eachBlock (fun row b => do mulChecked b first (← inverse (128 ^^^ row)) blockSize)
        fecBlocks
      (rest.zipIdx 1).foldlM (fun fec (block, blockNo) =>
        eachBlock (fun row b => do
          addmulChecked b block (← inverse (row ^^^ (128 + blockNo))) blockSize) fec) fec
  else none

/-- `erased_idx < nr_fec_blocks && erased_blocks[erased_idx] as usize == col` -/
def isErased (nrFec : ℕ) (erasedBlocks : List ℕ) (erasedIdx col : ℕ) : Option Bool :=
  if erasedIdx < nrFec then erasedBlocks[erasedIdx]?.map (· == col) else some false

/-- One turn of the reduction loop of `fec_decode` (fec.rs:264-279); the first component of the
state is `erased_idx`. -/
def reduceCol (blockSize nrFec : ℕ) (fecBlockNos erasedBlocks : List ℕ)
    (s : ℕ × List (List UInt8)) (colBlock : List UInt8 × ℕ) : Option (ℕ × List (List UInt8)) := do
  let (erasedIdx, reduced) := s
  let (block, col) := colBlock
  if ← isErased nrFec erasedBlocks erasedIdx col then some (erasedIdx + 1, reduced)
  else do
    let reduced ← eachBlock (fun j b => do
      addmulChecked b block (← inverse ((← fecBlockNos[j]?) ^^^ col ^^^ 128)) blockSize) reduced
    some (erasedIdx, reduced)

/-- The matrix of the erased columns (fec.rs:281-288). -/
def erasedMatrix (nrFec : ℕ) (fecBlockNos erasedBlocks : List ℕ) : Option (List UInt8) :=
  fecBlockNos.zipIdx.foldlM (fun matrix (fecNo, row) =>
    erasedBlocks.zipIdx.foldlM (fun (matrix : List UInt8) (erased, col) => do
      let v ← inverse ((128 + fecNo) ^^^ erased)
      if row * nrFec + col < matrix.length then some (matrix.set (row * nrFec + col) v) else none)
      matrix) (List.replicate (nrFec * nrFec) 0)

/-- The reconstruction of one erased block (fec.rs:295-311). -/
def rebuildBlock (blockSize nrFec : ℕ) (matrix : List UInt8) (reduced : List (List UInt8))
    (data : List (List UInt8)) (erasedRow : ℕ × ℕ) : Option (List (List UInt8)) := do
  let (erased, row) := erasedRow
  let target ← data[erased]?
  let target ← mulChecked target (← reduced[0]?) (← matrix[row * nrFec]?) blockSize
  let target ← ((List.range nrFec).drop 1).foldlM (fun target col => do
    addmulChecked target (← reduced[col]?) (← matrix[row * nrFec + col]?) blockSize) target
  some (data.set erased target)

/-- `fec_decode` (fec.rs:251-313): the return value and the data blocks as the call leaves them. -/
def fecDecode (blockSize : ℕ) (dataBlocks fecBlocks : List (List UInt8))
    (fecBlockNos erasedBlocks : List ℕ) : Option (Bool × List (List UInt8)) := do
  let nrFec := fecBlocks.length
  let (_, reduced) ← dataBlocks.zipIdx.foldlM
    (reduceCol blockSize nrFec fecBlockNos erasedBlocks) (0, fecBlocks)
  let matrix ← erasedMatrix nrFec fecBlockNos erasedBlocks
  match invertMat matrix nrFec with
  | none => some (false, dataBlocks)
  | some inv => do
    let data ← erasedBlocks.zipIdx.foldlM (rebuildBlock blockSize nrFec inv reduced) dataBlocks
    some (true, data)

/-! ### Lengths -/

theorem length_mulChecked {dst src dst' : List UInt8} {c : UInt8} {sz : ℕ}
    (h : mulChecked dst src c sz = some dst') : dst'.length = dst.length := by
  rw [mulChecked] at h
  split at h
  · rw [← Option.some.inj h, length_mul]
  · cases h

theorem length_addmulChecked {dst src dst' : List UInt8} {c : UInt8} {sz : ℕ}
    (h : addmulChecked dst src c sz = some dst') : dst'.length = dst.length := by
  rw [addmulChecked] at h
  split at h
  · rw [← Option.some.inj h, length_addmul]
  · cases h

theorem rebuildBlock_sizes {blockSize nrFec n : ℕ} {matrix : List UInt8}
    {reduced data data' : List (List UInt8)} {p : ℕ × ℕ} (hdata : ∀ b ∈ data, b.length = n)
    (h : rebuildBlock blockSize nrFec matrix reduced data p = some data') :
    ∀ b ∈ data', b.length = n := by
  simp only [rebuildBlock, Option.bind_eq_bind, Option.bind_eq_some_iff] at h
  obtain ⟨target, htarget, first, -, c, -, target₁, hmul, target₂, hfold, h⟩ := h
  obtain rfl := Option.some.inj h
  have hlen₁ : target₁.length = n := by
    rw [length_mulChecked hmul]
    exact hdata target (List.mem_of_getElem? htarget)
  have hlen₂ : target₂.length = n := by
    refine Fold.foldlM_invariant (P := fun t : List UInt8 => t.length = n)
      (fun col _ t t' ht hstep => ?_) hlen₁ hfold
    obtain ⟨_, -, hstep⟩ := Option.bind_eq_some_iff.mp hstep
    obtain ⟨_, -, hstep⟩ := Option.bind_eq_some_iff.mp hstep
    exact ht ▸ length_addmulChecked hstep
  intro b hb
  rcases List.mem_or_eq_of_mem_set hb with hb | rfl
  · exact hdata b hb
  · exact hlen₂

theorem fecDecode_sizes {blockSize n : ℕ} {data fec data' : List (List UInt8)} {nos erased : List ℕ}
    {ok : Bool} (hdata : ∀ b ∈ data, b.length = n)
    (h : fecDecode blockSize data fec nos erased = some (ok, data')) :
    ∀ b ∈ data', b.length = n := by
  simp only [fecDecode, Option.bind_eq_bind, Option.bind_eq_some_iff] at h
  obtain ⟨⟨_, reduced⟩, -, matrix, -, h⟩ := h
  dsimp only at h
  split at h
  · obtain ⟨-, rfl⟩ := Prod.mk.inj (Option.some.inj h)
    exact hdata
  · obtain ⟨data₁, hfold, h⟩ := Option.bind_eq_some_iff.mp h
    obtain ⟨-, rfl⟩ := Prod.mk.inj (Option.some.inj h)
    exact Fold.foldlM_invariant (P := fun d : List (List UInt8) => ∀ b ∈ d, b.length = n)
      (fun _ _ _ _ hd hstep => rebuildBlock_sizes hd hstep) hdata hfold

/-! ### Coefficients -/

/-- The number `n` of a row or column as a field element. -/
def point (n : ℕ) : Gf256 := ⟨UInt8.ofNat n⟩

/-- The coefficient of data block `col` in parity block `no`. -/
def coefficient (no col : ℕ) : Gf256 := (point (128 + no) - point col)⁻¹

theorem point_inj {a b : ℕ} (ha : a < 256) (hb : b < 256) (h : point a = point b) : a = b := by
  have hbyte : UInt8.ofNat a = UInt8.ofNat b := congrArg Gf256.byte h
  have hnat := congrArg UInt8.toNat hbyte
  rwa [UInt8.toNat_ofNat_of_lt' ha, UInt8.toNat_ofNat_of_lt' hb] at hnat

theorem point_sub_ne_zero {no col : ℕ} (hno : no < 128) (hcol : col < 128) :
    point (128 + no) - point col ≠ 0 := by
  intro hzero
  have hpoint := point_inj (by omega) (by omega) (sub_eq_zero.mp hzero)
  omega

theorem coefficient_ne_zero {no col : ℕ} (hno : no < 128) (hcol : col < 128) :
    coefficient no col ≠ 0 := inv_ne_zero (point_sub_ne_zero hno hcol)

theorem coefficient_inj {a b col : ℕ} (ha : a < 128) (hb : b < 128)
    (h : coefficient a col = coefficient b col) : a = b := by
  have hpoint := point_inj (by omega) (by omega) (sub_left_injective (inv_injective h))
  omega

theorem add_128_eq_xor : ∀ n < 128, 128 + n = 128 ^^^ n := by decide +kernel

/-- `INVERSE` at the index of a parity number and a column is the coefficient of the two. -/
theorem inverse_coefficient {no col : ℕ} (hno : no < 128) (hcol : col < 128) :
    inverse ((128 + no) ^^^ col) = some (coefficient no col).byte := by
  have hlt : (128 + no) ^^^ col < 256 :=
    Nat.xor_lt_two_pow (n := 8) (show 128 + no < 2 ^ 8 by omega) (show col < 2 ^ 8 by omega)
  rw [inverse_of_lt hlt, UInt8.ofNat_xor]
  rfl

/-- The encoder's index for the same pair (fec.rs:240 and 246). -/
theorem inverse_encode {row col : ℕ} (hrow : row < 128) (hcol : col < 128) :
    inverse (row ^^^ (128 + col)) = some (coefficient row col).byte := by
  have hidx : row ^^^ (128 + col) = (128 + row) ^^^ col := by
    rw [add_128_eq_xor col hcol, add_128_eq_xor row hrow, ← Nat.xor_assoc, Nat.xor_comm row 128]
  rw [hidx, inverse_coefficient hrow hcol]

/-- The decoder's index for the same pair (fec.rs:275). -/
theorem inverse_reduce {no col : ℕ} (hno : no < 128) (hcol : col < 128) :
    inverse (no ^^^ col ^^^ 128) = some (coefficient no col).byte := by
  have hidx : no ^^^ col ^^^ 128 = (128 + no) ^^^ col := by
    rw [add_128_eq_xor no hno, Nat.xor_comm _ 128, Nat.xor_assoc]
  rw [hidx, inverse_coefficient hno hcol]

/-! ### A list of blocks -/

/-- `n` blocks of `blockSize` bytes. -/
structure Blocks (blockSize n : ℕ) (blocks : List (List UInt8)) : Prop where
  length : blocks.length = n
  size : ∀ b ∈ blocks, b.length = blockSize

/-- Byte `t` of block `i`. -/
def byteAt (blocks : List (List UInt8)) (i t : ℕ) : Gf256 := ⟨(blocks.getD i []).getD t 0⟩

theorem Blocks.getD {blockSize n : ℕ} {blocks : List (List UInt8)} (h : Blocks blockSize n blocks)
    {i : ℕ} (hi : i < n) : (blocks.getD i []).length = blockSize := by
  rw [← h.length] at hi
  rw [List.getD_eq_getElem _ _ hi]
  exact h.size _ (List.getElem_mem hi)

theorem Blocks.getElem? {blockSize n : ℕ} {blocks : List (List UInt8)}
    (h : Blocks blockSize n blocks) {i : ℕ} (hi : i < n) :
    blocks[i]? = some (blocks.getD i []) := by
  rw [← h.length] at hi
  rw [List.getD_eq_getElem _ _ hi, List.getElem?_eq_getElem hi]

/-- Blocks of one size that agree in every byte are the same blocks. -/
theorem Blocks.ext {blockSize n : ℕ} {a b : List (List UInt8)} (ha : Blocks blockSize n a)
    (hb : Blocks blockSize n b) (h : ∀ i < n, ∀ t < blockSize, byteAt a i t = byteAt b i t) :
    a = b := by
  refine Buffer.ext_getD [] (ha.length.trans hb.length.symm) fun i hi => ?_
  rw [ha.length] at hi
  refine Buffer.ext_getD 0 ((ha.getD hi).trans (hb.getD hi).symm) fun t ht => ?_
  rw [ha.getD hi] at ht
  exact congrArg Gf256.byte (h i hi t ht)

theorem Blocks.set {blockSize n : ℕ} {blocks : List (List UInt8)} (h : Blocks blockSize n blocks)
    (i : ℕ) {b : List UInt8} (hb : b.length = blockSize) : Blocks blockSize n (blocks.set i b) where
  length := by rw [List.length_set, h.length]
  size c hc := by
    rcases List.mem_or_eq_of_mem_set hc with hmem | rfl
    · exact h.size c hmem
    · exact hb

theorem byteAt_set {blockSize n : ℕ} {blocks : List (List UInt8)} (h : Blocks blockSize n blocks)
    {i : ℕ} (hi : i < n) (b : List UInt8) (j t : ℕ) :
    byteAt (blocks.set i b) j t = if i = j then ⟨b.getD t 0⟩ else byteAt blocks j t := by
  have hlen : i < blocks.length := by rw [h.length]; exact hi
  rw [byteAt, Buffer.getD_set]
  simp only [hlen, and_true]
  split
  · rfl
  · rfl

theorem eachBlock_eq {op : ℕ → List UInt8 → Option (List UInt8)}
    {f : ℕ → List UInt8 → List UInt8} {blockSize n : ℕ} {blocks : List (List UInt8)}
    (h : Blocks blockSize n blocks)
    (hop : ∀ row < n, ∀ b : List UInt8, b.length = blockSize → op row b = some (f row b)) :
    eachBlock op blocks = some (blocks.mapIdx f) := by
  have key : ∀ (l : List (List UInt8)) (k : ℕ), (∀ b ∈ l, b.length = blockSize) →
      k + l.length ≤ n →
      (l.zipIdx k).mapM (fun p => op p.2 p.1) = some (l.mapIdx fun i b => f (k + i) b) := by
    intro l
    induction l with
    | nil => intro k _ _; rfl
    | cons b l ih =>
      intro k hsize hk
      have hb : op k b = some (f k b) :=
        hop k (by simp only [List.length_cons] at hk; omega) b (hsize b (List.mem_cons_self ..))
      have hl := ih (k + 1) (fun c hc => hsize c (List.mem_cons_of_mem _ hc))
        (by simp only [List.length_cons] at hk; omega)
      rw [List.zipIdx_cons, List.mapM_cons, hl, hb, List.mapIdx_cons]
      have hidx : ∀ i, k + 1 + i = k + (i + 1) := fun i => by omega
      simp only [hidx, Nat.add_zero]
      rfl
  have h0 := key blocks 0 h.size (by rw [h.length]; omega)
  simp only [Nat.zero_add] at h0
  exact h0

theorem Blocks.mapIdx {blockSize n : ℕ} {blocks : List (List UInt8)} (h : Blocks blockSize n blocks)
    {f : ℕ → List UInt8 → List UInt8} (hf : ∀ row b, (f row b).length = b.length) :
    Blocks blockSize n (blocks.mapIdx f) where
  length := by rw [List.length_mapIdx, h.length]
  size c hc := by
    obtain ⟨i, hi, rfl⟩ := List.mem_mapIdx.mp hc
    rw [hf]
    exact h.size _ (List.getElem_mem hi)

theorem getD_mapIdx {blockSize n : ℕ} {blocks : List (List UInt8)} (h : Blocks blockSize n blocks)
    (f : ℕ → List UInt8 → List UInt8) {i : ℕ} (hi : i < n) :
    (blocks.mapIdx f).getD i [] = f i (blocks.getD i []) := by
  rw [List.getD_eq_getElem?_getD, List.getElem?_mapIdx, h.getElem? hi]
  rfl

theorem eachBlock_addmul {blockSize n : ℕ} {blocks : List (List UInt8)}
    (h : Blocks blockSize n blocks) {src : List UInt8} (hsrc : src.length = blockSize)
    {v : ℕ → Option UInt8} {c : ℕ → Gf256} (hv : ∀ row < n, v row = some (c row).byte) :
    ∃ blocks', eachBlock (fun row b => do addmulChecked b src (← v row) blockSize) blocks
        = some blocks' ∧ Blocks blockSize n blocks' ∧
      ∀ i < n, ∀ t < blockSize,
        byteAt blocks' i t = byteAt blocks i t + c i * ⟨src.getD t 0⟩ := by
  have hop : ∀ row < n, ∀ b : List UInt8, b.length = blockSize →
      (do addmulChecked b src (← v row) blockSize)
        = some (addmul b src (c row).byte blockSize) := by
    intro row hrow b hb
    rw [hv row hrow]
    exact if_pos (Or.inr ⟨hb.ge, hsrc.ge⟩)
  refine ⟨_, eachBlock_eq h hop, h.mapIdx fun row b => length_addmul b src _ _, ?_⟩
  intro i hi t ht
  have hlen : t < (blocks.getD i []).length := by rw [h.getD hi]; exact ht
  rw [byteAt, getD_mapIdx h _ hi, getD_addmul _ _ _ _ _ hlen, if_pos ht]
  rfl

theorem eachBlock_mul {blockSize n : ℕ} {blocks : List (List UInt8)}
    (h : Blocks blockSize n blocks) {src : List UInt8} (hsrc : src.length = blockSize)
    {v : ℕ → Option UInt8} {c : ℕ → Gf256} (hv : ∀ row < n, v row = some (c row).byte) :
    ∃ blocks', eachBlock (fun row b => do mulChecked b src (← v row) blockSize) blocks
        = some blocks' ∧ Blocks blockSize n blocks' ∧
      ∀ i < n, ∀ t < blockSize, byteAt blocks' i t = c i * ⟨src.getD t 0⟩ := by
  have hop : ∀ row < n, ∀ b : List UInt8, b.length = blockSize →
      (do mulChecked b src (← v row) blockSize) = some (mul b src (c row).byte blockSize) := by
    intro row hrow b hb
    rw [hv row hrow]
    exact if_pos ⟨hb.ge, Or.inr hsrc.ge⟩
  refine ⟨_, eachBlock_eq h hop, h.mapIdx fun row b => length_mul b src _ _, ?_⟩
  intro i hi t ht
  have hlen : t < (blocks.getD i []).length := by rw [h.getD hi]; exact ht
  rw [byteAt, getD_mapIdx h _ hi, getD_mul _ _ _ _ _ hlen, if_pos ht]
  rfl

/-! ### `fec_encode` -/

/-- Byte `t` of parity block `no` of a stripe. -/
def parityByte (data : List (List UInt8)) (no t : ℕ) : Gf256 :=
  ∑ col ∈ Finset.range data.length, coefficient no col * byteAt data col t

theorem byteAt_cons_succ (b : List UInt8) (l : List (List UInt8)) (i t : ℕ) :
    byteAt (b :: l) (i + 1) t = byteAt l i t := rfl

theorem byteAt_cons_zero (b : List UInt8) (l : List (List UInt8)) (t : ℕ) :
    byteAt (b :: l) 0 t = ⟨b.getD t 0⟩ := rfl

theorem encodeLoop_spec {blockSize n : ℕ} (hn : n ≤ 128) (rest : List (List UInt8)) (k : ℕ)
    (hrest : ∀ b ∈ rest, b.length = blockSize) (hk : k + rest.length ≤ 128)
    {fec : List (List UInt8)} (h : Blocks blockSize n fec) :
    ∃ fec', (rest.zipIdx k).foldlM (fun fec (block, blockNo) =>
          eachBlock (fun row b => do
            addmulChecked b block (← inverse (row ^^^ (128 + blockNo))) blockSize) fec) fec
        = some fec' ∧ Blocks blockSize n fec' ∧
      ∀ i < n, ∀ t < blockSize, byteAt fec' i t = byteAt fec i t
        + ∑ j ∈ Finset.range rest.length, coefficient i (k + j) * byteAt rest j t := by
  induction rest generalizing k fec with
  | nil => exact ⟨fec, rfl, h, fun i _ t _ => by simp⟩
  | cons block rest ih =>
    simp only [List.length_cons] at hk
    obtain ⟨fec₁, hstep, h₁, hbyte₁⟩ := eachBlock_addmul h (hrest block (List.mem_cons_self ..))
      (v := fun row => inverse (row ^^^ (128 + k))) (c := fun row => coefficient row k)
      fun row hrow => inverse_encode (by omega) (by omega)
    obtain ⟨fec₂, hloop, h₂, hbyte₂⟩ :=
      ih (k + 1) (fun b hb => hrest b (List.mem_cons_of_mem _ hb)) (by omega) h₁
    refine ⟨fec₂, ?_, h₂, ?_⟩
    · rw [List.zipIdx_cons, List.foldlM_cons]
      simp only [hstep]
      exact hloop
    · intro i hi t ht
      have hidx : ∀ j, k + 1 + j = k + (j + 1) := fun j => by omega
      rw [hbyte₂ i hi t ht, hbyte₁ i hi t ht, List.length_cons, Finset.sum_range_succ']
      simp only [hidx, byteAt_cons_succ, byteAt_cons_zero, Nat.add_zero]
      ring

/-- `fec_encode` leaves in every parity block the linear combination of its row. -/
theorem fecEncode_spec {blockSize n : ℕ} {data fec : List (List UInt8)} (hdata : data ≠ [])
    (hlen : data.length ≤ 128) (hn : n ≤ 128) (hd : Blocks blockSize data.length data)
    (hf : Blocks blockSize n fec) :
    ∃ parity, fecEncode blockSize data fec = some parity ∧ Blocks blockSize n parity ∧
      ∀ i < n, ∀ t < blockSize, byteAt parity i t = parityByte data i t := by
  cases data with
  | nil => exact absurd rfl hdata
  | cons first rest =>
    simp only [List.length_cons] at hlen
    have hfirst := hd.size first (List.mem_cons_self ..)
    obtain ⟨fec₁, hmul, h₁, hbyte₁⟩ := eachBlock_mul hf hfirst
      (v := fun row => inverse (128 ^^^ row)) (c := fun row => coefficient row 0)
      fun row hrow => by
        rw [← inverse_encode (by omega) (by omega : 0 < 128), Nat.xor_comm]
    obtain ⟨fec₂, hloop, h₂, hbyte₂⟩ := encodeLoop_spec hn rest 1
      (fun b hb => hd.size b (List.mem_cons_of_mem _ hb)) (by omega) h₁
    refine ⟨fec₂, ?_, h₂, ?_⟩
    · have hguard : (first :: rest).length ≤ 128 ∧ fec.length ≤ 128 :=
        ⟨by simp only [List.length_cons]; omega, by rw [hf.length]; exact hn⟩
      rw [fecEncode, if_pos hguard]
      simp only [hmul]
      exact hloop
    · intro i hi t ht
      have hidx : ∀ j, 1 + j = j + 1 := fun j => by omega
      rw [hbyte₂ i hi t ht, hbyte₁ i hi t ht, parityByte, List.length_cons, Finset.sum_range_succ']
      simp only [hidx, byteAt_cons_succ, byteAt_cons_zero]
      ring

/-! ### `fec_decode` -/

/-- A list of numbers in strictly increasing order, at least `k`, splits at its first element. -/
theorem contains_eq_head {l : List ℕ} (hl : l.Pairwise (· < ·)) {k : ℕ} (hk : ∀ a ∈ l, k ≤ a) :
    k ∈ l ↔ l.head? = some k := by
  cases l with
  | nil => simp
  | cons a l =>
    have ha := hk a (List.mem_cons_self ..)
    have hlt := (List.pairwise_cons.mp hl).1
    constructor
    · intro hmem
      rcases List.mem_cons.mp hmem with rfl | htail
      · rfl
      · have := hlt k htail
        omega
    · intro hhead
      have hak : a = k := by simpa using hhead
      rw [hak]
      exact List.mem_cons_self ..

/-- `erased_idx` counts the erased columns below `k`. -/
structure ErasedAt (erased : List ℕ) (e k : ℕ) : Prop where
  below : ∀ a ∈ erased.take e, a < k
  above : ∀ a ∈ erased.drop e, k ≤ a

theorem erasedAt_zero (erased : List ℕ) : ErasedAt erased 0 0 :=
  ⟨fun _ ha => absurd ha List.not_mem_nil, fun _ _ => Nat.zero_le _⟩

section ErasedAt

variable {n : ℕ} {erased : List ℕ} {e k : ℕ}

theorem ErasedAt.mem_iff (h : ErasedAt erased e k) (hsorted : erased.Pairwise (· < ·)) :
    k ∈ erased ↔ erased[e]? = some k := by
  have hsplit : k ∈ erased ↔ k ∈ erased.drop e := by
    conv_lhs => rw [← List.take_append_drop e erased, List.mem_append]
    exact or_iff_right fun hk => absurd (h.below k hk) (lt_irrefl k)
  rw [hsplit, contains_eq_head (hsorted.sublist (List.drop_sublist e erased)) h.above,
    List.head?_drop]

theorem ErasedAt.isErased (h : ErasedAt erased e k) (hsorted : erased.Pairwise (· < ·))
    (hlen : erased.length = n) : isErased n erased e k = some (decide (k ∈ erased)) := by
  have hmem := h.mem_iff hsorted
  unfold Fec.isErased
  split
  · have hlt : e < erased.length := by omega
    rw [List.getElem?_eq_getElem hlt, Option.some_inj] at hmem
    rw [List.getElem?_eq_getElem hlt, Option.map_some, decide_eq_decide.mpr hmem]
    rfl
  · have hge : erased[e]? = none := List.getElem?_eq_none (by omega)
    rw [hge] at hmem
    rw [decide_eq_false fun hk => by cases hmem.mp hk]

theorem ErasedAt.skip (h : ErasedAt erased e k) (hsorted : erased.Pairwise (· < ·))
    (hin : k ∈ erased) : ErasedAt erased (e + 1) (k + 1) := by
  have hget := (h.mem_iff hsorted).mp hin
  have hlt : e < erased.length := (List.getElem?_eq_some_iff.mp hget).1
  have hkey : erased.drop e = k :: erased.drop (e + 1) := by
    rw [List.drop_eq_getElem_cons hlt]
    rw [List.getElem?_eq_getElem hlt] at hget
    rw [Option.some.inj hget]
  have hpair := hsorted.sublist (List.drop_sublist e erased)
  rw [hkey] at hpair
  refine ⟨fun a ha => ?_, (List.pairwise_cons.mp hpair).1⟩
  rw [List.take_add_one, hget] at ha
  rcases List.mem_append.mp ha with hold | hnew
  · have hlt := h.below a hold
    omega
  · have hak : a = k := by simpa using hnew
    omega

theorem ErasedAt.keep (h : ErasedAt erased e k) (hin : k ∉ erased) : ErasedAt erased e (k + 1) := by
  refine ⟨fun a ha => Nat.lt_succ_of_lt (h.below a ha), fun a ha => ?_⟩
  have hle := h.above a ha
  have hne : a ≠ k := fun hak => hin (hak ▸ List.mem_of_mem_drop ha)
  omega

end ErasedAt

/-- The reduction loop subtracts every block that is there from every parity block. -/
theorem reduceLoop_spec {blockSize n : ℕ} {nos erased : List ℕ} (hnos : nos.length = n)
    (hno : ∀ no ∈ nos, no < 128) (herased : erased.length = n)
    (hsorted : erased.Pairwise (· < ·)) (data : List (List UInt8)) (k e : ℕ)
    (hsize : ∀ b ∈ data, b.length = blockSize) (hk : k + data.length ≤ 128)
    (hat : ErasedAt erased e k)
    {fec : List (List UInt8)} (h : Blocks blockSize n fec) :
    ∃ e' reduced, (data.zipIdx k).foldlM (reduceCol blockSize n nos erased) (e, fec)
        = some (e', reduced) ∧ Blocks blockSize n reduced ∧
      ∀ i < n, ∀ t < blockSize, byteAt reduced i t = byteAt fec i t
        + ∑ j ∈ Finset.range data.length,
            if k + j ∈ erased then 0 else coefficient (nos.getD i 0) (k + j) * byteAt data j t := by
  induction data generalizing k e fec with
  | nil => exact ⟨e, fec, rfl, h, fun i _ t _ => by simp⟩
  | cons block data ih =>
    simp only [List.length_cons] at hk
    have hskip := hat.isErased hsorted herased
    have hidx : ∀ j, k + 1 + j = k + (j + 1) := fun j => by omega
    have htailSize := fun b (hb : b ∈ data) => hsize b (List.mem_cons_of_mem _ hb)
    by_cases hin : k ∈ erased
    · -- an erased column only advances `erased_idx`
      have hstep : reduceCol blockSize n nos erased (e, fec) (block, k) = some (e + 1, fec) := by
        simp [reduceCol, hskip, hin]
      obtain ⟨e', reduced, hloop, hb, hbyte⟩ :=
        ih (k + 1) (e + 1) htailSize (by omega) (hat.skip hsorted hin) h
      refine ⟨e', reduced, ?_, hb, ?_⟩
      · rw [List.zipIdx_cons, List.foldlM_cons, hstep]
        exact hloop
      · intro i hi t ht
        rw [hbyte i hi t ht, List.length_cons, Finset.sum_range_succ']
        simp only [hidx, byteAt_cons_succ, hin, if_true, add_zero]
    · obtain ⟨fec₁, hmul, h₁, hbyte₁⟩ := eachBlock_addmul h (hsize block (List.mem_cons_self ..))
        (v := fun j => do inverse ((← nos[j]?) ^^^ k ^^^ 128))
        (c := fun j => coefficient (nos.getD j 0) k) fun j hj => by
          have hlt : j < nos.length := by omega
          rw [List.getElem?_eq_getElem hlt, List.getD_eq_getElem _ _ hlt]
          exact inverse_reduce (hno _ (List.getElem_mem hlt)) (by omega)
      have hstep : reduceCol blockSize n nos erased (e, fec) (block, k) = some (e, fec₁) := by
        simp only [bind_assoc] at hmul
        simp only [reduceCol, hskip, hin, decide_false, Option.bind_eq_bind, Option.bind_some, Bool.false_eq_true,
          if_false] at hmul ⊢
        rw [hmul]
        rfl
      obtain ⟨e', reduced, hloop, hb, hbyte⟩ :=
        ih (k + 1) e htailSize (by omega) (hat.keep hin) h₁
      refine ⟨e', reduced, ?_, hb, ?_⟩
      · rw [List.zipIdx_cons, List.foldlM_cons, hstep]
        exact hloop
      · intro i hi t ht
        rw [hbyte i hi t ht, hbyte₁ i hi t ht, List.length_cons, Finset.sum_range_succ']
        simp only [hidx, byteAt_cons_succ, byteAt_cons_zero, Nat.add_zero, hin, if_false]
        ring

theorem erasedRow_spec {no s : ℕ} (hno : no < 128) (erased : List ℕ)
    (herased : ∀ a ∈ erased, a < 128) (k : ℕ) {m : List UInt8}
    (hlen : s + k + erased.length ≤ m.length) :
    ∃ m', (erased.zipIdx k).foldlM (fun (m : List UInt8) (erased, col) => do
          let v ← inverse ((128 + no) ^^^ erased)
          if s + col < m.length then some (m.set (s + col) v) else none) m
        = some m' ∧ m'.length = m.length ∧
      ∀ j, m'.getD j 0 = if s + k ≤ j ∧ j < s + k + erased.length
        then (coefficient no (erased.getD (j - (s + k)) 0)).byte else m.getD j 0 := by
  induction erased generalizing k m with
  | nil => exact ⟨m, rfl, rfl, fun j => by rw [if_neg (by simp only [List.length_nil]; omega)]⟩
  | cons a erased ih =>
    simp only [List.length_cons] at hlen
    have ha := herased a (List.mem_cons_self ..)
    have hlen₁ : s + (k + 1) + erased.length
        ≤ (m.set (s + k) (coefficient no a).byte).length := by
      rw [List.length_set]
      omega
    obtain ⟨m', hloop, hlen', hcell⟩ :=
      ih (fun b hb => herased b (List.mem_cons_of_mem _ hb)) (k + 1) hlen₁
    rw [List.length_set] at hlen'
    refine ⟨m', ?_, hlen', ?_⟩
    · have hlt : s + k < m.length := by omega
      rw [List.zipIdx_cons, List.foldlM_cons]
      simp only [inverse_coefficient hno ha, hlt, if_true]
      exact hloop
    · intro j
      rw [hcell j, Buffer.getD_set, List.length_cons]
      rcases Nat.lt_trichotomy j (s + k) with hj | rfl | hj
      · rw [if_neg (by omega), if_neg (by omega), if_neg (by omega)]
      · rw [if_neg (by omega), if_pos ⟨rfl, by omega⟩, if_pos (by omega), Nat.sub_self]
        rfl
      · obtain ⟨d, rfl⟩ : ∃ d, j = s + k + (d + 1) := ⟨j - (s + k) - 1, by omega⟩
        have h1 : s + k + (d + 1) - (s + k) = d + 1 := by omega
        have h2 : s + k + (d + 1) - (s + (k + 1)) = d := by omega
        have hiff : (s + (k + 1) ≤ s + k + (d + 1) ∧ s + k + (d + 1) < s + (k + 1) + erased.length)
            ↔ (s + k ≤ s + k + (d + 1) ∧ s + k + (d + 1) < s + k + (erased.length + 1)) := by omega
        have hne : ¬(s + k = s + k + (d + 1) ∧ s + k < m.length) := by omega
        rw [h1, h2, if_neg hne, List.getD_cons_succ]
        simp only [hiff]

theorem erasedRows_spec {n : ℕ} {erased : List ℕ} (herased : ∀ a ∈ erased, a < 128)
    (hn : erased.length = n) (nos : List ℕ) (hno : ∀ no ∈ nos, no < 128) (k : ℕ)
    {m : List UInt8} (hlen : m.length = n * n) (hk : k + nos.length = n) :
    ∃ m', (nos.zipIdx k).foldlM (fun m (no, row) =>
          erased.zipIdx.foldlM (fun (m : List UInt8) (erased, col) => do
            let v ← inverse ((128 + no) ^^^ erased)
            if row * n + col < m.length then some (m.set (row * n + col) v) else none)
          m) m = some m' ∧ m'.length = n * n ∧
      (∀ j < k * n, m'.getD j 0 = m.getD j 0) ∧
      ∀ r < nos.length, ∀ c < n,
        cell n m' (k + r) c = (coefficient (nos.getD r 0) (erased.getD c 0)).byte := by
  induction nos generalizing k m with
  | nil => exact ⟨m, rfl, hlen, fun j _ => rfl, fun r hr => by simp at hr⟩
  | cons no nos ih =>
    simp only [List.length_cons] at hk
    have hrow : k * n + n ≤ n * n := row_le (by omega)
    have hfits : k * n + 0 + erased.length ≤ m.length := by
      rw [hlen, hn]
      omega
    obtain ⟨m₁, hstep, hlen₁, hcell₁⟩ :=
      erasedRow_spec (hno no (List.mem_cons_self ..)) erased herased 0 hfits
    rw [hn] at hcell₁
    obtain ⟨m₂, hloop, hlen₂, hkeep, hcell₂⟩ :=
      ih (fun b hb => hno b (List.mem_cons_of_mem _ hb)) (k + 1) (hlen₁.trans hlen) (by omega)
    have hsucc : (k + 1) * n = k * n + n := Nat.succ_mul k n
    refine ⟨m₂, ?_, hlen₂, ?_, ?_⟩
    · rw [List.zipIdx_cons, List.foldlM_cons]
      simp only [hstep]
      exact hloop
    · intro j hj
      rw [hkeep j (by omega), hcell₁ j, if_neg (by omega)]
    · intro r hr c hc
      cases r with
      | zero =>
        rw [cell, Nat.add_zero, hkeep _ (by omega), hcell₁, if_pos (by omega)]
        have hidx : k * n + c - (k * n + 0) = c := by omega
        rw [hidx]
        rfl
      | succ r =>
        have hidx : k + (r + 1) = k + 1 + r := by omega
        rw [hidx]
        exact hcell₂ r (by simpa using hr) c hc

theorem erasedMatrix_spec {n : ℕ} {nos erased : List ℕ} (hnos : nos.length = n)
    (hno : ∀ no ∈ nos, no < 128) (hn : erased.length = n) (herased : ∀ a ∈ erased, a < 128) :
    ∃ m, erasedMatrix n nos erased = some m ∧ m.length = n * n ∧
      ∀ r c : Fin n, mat n m r c = coefficient (nos.getD r 0) (erased.getD c 0) := by
  have hzero : (List.replicate (n * n) (0 : UInt8)).length = n * n := List.length_replicate
  obtain ⟨m, hloop, hlen, -, hcell⟩ := erasedRows_spec herased hn nos hno 0 hzero (by omega)
  refine ⟨m, hloop, hlen, fun r c => Gf256.ext ?_⟩
  have h := hcell r (by omega) c c.isLt
  rwa [Nat.zero_add] at h

theorem rebuildLoop_spec {blockSize n row : ℕ} {inv : List UInt8} {reduced : List (List UInt8)}
    (hr : Blocks blockSize n reduced) (hinv : inv.length = n * n) (hrow : row < n) (m k : ℕ)
    (hk : k + m ≤ n) {target : List UInt8} (ht : target.length = blockSize) :
    ∃ target', (List.range' k m).foldlM (fun target col => do
          addmulChecked target (← reduced[col]?) (← inv[row * n + col]?) blockSize) target
        = some target' ∧ target'.length = blockSize ∧
      ∀ t < blockSize, (⟨target'.getD t 0⟩ : Gf256) = ⟨target.getD t 0⟩
        + ∑ j ∈ Finset.range m, ⟨cell n inv row (k + j)⟩ * byteAt reduced (k + j) t := by
  induction m generalizing k target with
  | zero => exact ⟨target, rfl, ht, fun t _ => by simp⟩
  | succ m ih =>
    have hlen : (addmul target (reduced.getD k []) (cell n inv row k) blockSize).length
        = blockSize := by rw [length_addmul, ht]
    obtain ⟨target', hloop, ht', hbyte⟩ := ih (k + 1) (by omega) hlen
    refine ⟨target', ?_, ht', ?_⟩
    · have hlt : row * n + k < inv.length := by
        rw [hinv]
        exact cell_lt hrow (by omega)
      have hcell : inv[row * n + k]? = some (cell n inv row k) := by
        rw [cell, List.getD_eq_getElem _ _ hlt, List.getElem?_eq_getElem hlt]
      have hsrc : (reduced.getD k []).length = blockSize := hr.getD (by omega)
      have hadd : addmulChecked target (reduced.getD k []) (cell n inv row k) blockSize
          = some (addmul target (reduced.getD k []) (cell n inv row k) blockSize) :=
        if_pos (Or.inr ⟨ht.ge, hsrc.ge⟩)
      rw [List.range'_succ, List.foldlM_cons, hr.getElem? (by omega), hcell]
      simp only [Option.bind_eq_bind, Option.bind_some, hadd]
      exact hloop
    · intro t htl
      have hidx : ∀ j, k + 1 + j = k + (j + 1) := fun j => by omega
      rw [hbyte t htl, getD_addmul _ _ _ _ _ (by omega), if_pos htl, Finset.sum_range_succ']
      simp only [hidx, Nat.add_zero]
      have hsplit : (⟨target.getD t 0 ^^^ gfMul (cell n inv row k) ((reduced.getD k []).getD t 0)⟩
          : Gf256) = ⟨target.getD t 0⟩ + ⟨cell n inv row k⟩ * byteAt reduced k t := rfl
      rw [hsplit]
      ring

theorem rebuildBlock_spec {blockSize n nrData row a : ℕ} {inv : List UInt8}
    {reduced data : List (List UInt8)} (hr : Blocks blockSize n reduced) (hinv : inv.length = n * n)
    (hrow : row < n) (hd : Blocks blockSize nrData data) (ha : a < nrData) :
    ∃ data', rebuildBlock blockSize n inv reduced data (a, row) = some data' ∧
      Blocks blockSize nrData data' ∧
      ∀ i, ∀ t < blockSize, byteAt data' i t = if a = i
        then ∑ c ∈ Finset.range n, ⟨cell n inv row c⟩ * byteAt reduced c t
        else byteAt data i t := by
  obtain ⟨n, rfl⟩ : ∃ m, n = m + 1 := ⟨n - 1, by omega⟩
  have hlt : row * (n + 1) < inv.length := by
    rw [hinv]
    exact cell_lt hrow (Nat.succ_pos n)
  have hcell : inv[row * (n + 1)]? = some (cell (n + 1) inv row 0) := by
    rw [List.getElem?_eq_getElem hlt, ← List.getD_eq_getElem _ 0 hlt]
    rfl
  have hsrc : (reduced.getD 0 []).length = blockSize := hr.getD (by omega)
  have hold : (data.getD a []).length = blockSize := hd.getD ha
  have hfirst : (mul (data.getD a []) (reduced.getD 0 []) (cell (n + 1) inv row 0) blockSize).length
      = blockSize := by rw [length_mul, hold]
  obtain ⟨target, hloop, hlen, hbyte⟩ := rebuildLoop_spec hr hinv hrow n 1 (by omega) hfirst
  have hmul : mulChecked (data.getD a []) (reduced.getD 0 []) (cell (n + 1) inv row 0) blockSize
      = some (mul (data.getD a []) (reduced.getD 0 []) (cell (n + 1) inv row 0) blockSize) :=
    if_pos ⟨hold.ge, Or.inr hsrc.ge⟩
  have hrange : (List.range (n + 1)).drop 1 = List.range' 1 n := by
    rw [List.range_eq_range', List.range'_succ]
    rfl
  refine ⟨data.set a target, ?_, hd.set a hlen, ?_⟩
  · simp only [rebuildBlock, hd.getElem? ha, hr.getElem? (Nat.succ_pos n), hcell, hmul, hrange,
      Option.bind_eq_bind, Option.bind_some] at hloop ⊢
    rw [hloop]
    rfl
  · intro i t ht
    rw [byteAt_set hd ha]
    split
    · have hidx : ∀ j, 1 + j = j + 1 := fun j => by omega
      rw [hbyte t ht, getD_mul _ _ _ _ _ (by omega), if_pos ht, Finset.sum_range_succ']
      simp only [hidx]
      rw [add_comm]
      rfl
    · rfl

theorem rebuildBlocks_spec {blockSize n nrData : ℕ} {inv : List UInt8}
    {reduced : List (List UInt8)} (hr : Blocks blockSize n reduced) (hinv : inv.length = n * n)
    (erased : List ℕ) (herased : ∀ a ∈ erased, a < nrData) (hnodup : erased.Nodup) (k : ℕ)
    (hk : k + erased.length ≤ n) {data : List (List UInt8)} (hd : Blocks blockSize nrData data) :
    ∃ data', (erased.zipIdx k).foldlM (rebuildBlock blockSize n inv reduced) data = some data' ∧
      Blocks blockSize nrData data' ∧
      (∀ i, i ∉ erased → ∀ t < blockSize, byteAt data' i t = byteAt data i t) ∧
      ∀ r < erased.length, ∀ t < blockSize, byteAt data' (erased.getD r 0) t
        = ∑ c ∈ Finset.range n, ⟨cell n inv (k + r) c⟩ * byteAt reduced c t := by
  induction erased generalizing k data with
  | nil => exact ⟨data, rfl, hd, fun i _ t _ => rfl, fun r hr => by simp at hr⟩
  | cons a erased ih =>
    simp only [List.length_cons] at hk
    obtain ⟨hnot, hnodup'⟩ := List.nodup_cons.mp hnodup
    have hk : k < n := by omega
    obtain ⟨data₁, hstep, hd₁, hbyte₁⟩ := rebuildBlock_spec hr hinv hk hd
      (herased a (List.mem_cons_self ..))
    obtain ⟨data₂, hloop, hd₂, hkeep, hbyte₂⟩ :=
      ih (fun b hb => herased b (List.mem_cons_of_mem _ hb)) hnodup' (k + 1) (by omega) hd₁
    refine ⟨data₂, ?_, hd₂, ?_, ?_⟩
    · rw [List.zipIdx_cons, List.foldlM_cons, hstep]
      exact hloop
    · intro i hi t ht
      obtain ⟨hia, hi'⟩ := not_or.mp fun h => hi (List.mem_cons.mpr h)
      rw [hkeep i hi' t ht, hbyte₁ i t ht, if_neg (fun h => hia h.symm)]
    · intro r hr t ht
      cases r with
      | zero => rw [List.getD_cons_zero, hkeep a hnot t ht, hbyte₁ a t ht, if_pos rfl, Nat.add_zero]
      | succ r =>
        have hidx : k + (r + 1) = k + 1 + r := by omega
        rw [List.getD_cons_succ, hidx]
        exact hbyte₂ r (by simpa using hr) t ht

/-! ### The round trip -/

/-- The blocks at hand when a stripe with the data blocks `data` is decoded: the parity blocks
numbered `nos`, and the data blocks except those at the positions `erased`. -/
structure Stripe (blockSize : ℕ) (data received fec : List (List UInt8)) (nos erased : List ℕ) :
    Prop where
  length_le : data.length ≤ 128
  dataBlocks : Blocks blockSize data.length data
  receivedBlocks : Blocks blockSize data.length received
  kept : ∀ i < data.length, i ∉ erased → received.getD i [] = data.getD i []
  fecBlocks : Blocks blockSize nos.length fec
  parity : ∀ i < nos.length, ∀ t < blockSize, byteAt fec i t = parityByte data (nos.getD i 0) t
  nos_lt : ∀ no ∈ nos, no < 128
  length_eq : erased.length = nos.length
  sorted : erased.Pairwise (· < ·)
  erased_lt : ∀ a ∈ erased, a < data.length

/-- The matrix of the erased columns. -/
def coefficients (n : ℕ) (nos erased : List ℕ) : Matrix (Fin n) (Fin n) Gf256 :=
  fun r c => coefficient (nos.getD r 0) (erased.getD c 0)

theorem sum_erased {erased : List ℕ} {m : ℕ} (hnodup : erased.Nodup) (hlt : ∀ a ∈ erased, a < m)
    (f : ℕ → Gf256) :
    (∑ j ∈ Finset.range m, if j ∈ erased then f j else 0)
      = ∑ c ∈ Finset.range erased.length, f (erased.getD c 0) := by
  have hset : (Finset.range m).filter (· ∈ erased) = erased.toFinset := by
    refine Finset.ext fun a => ?_
    simp only [Finset.mem_filter, Finset.mem_range, List.mem_toFinset]
    exact and_iff_right_of_imp (hlt a)
  rw [← Finset.sum_filter, hset, List.sum_toFinset _ hnodup, Finset.sum_range]
  rw [← List.sum_ofFn]
  congr 1
  refine List.ext_getElem (by simp) fun i hi _ => ?_
  simp

/-- After the reduction the parity blocks depend on the erased blocks only. -/
theorem Stripe.reduced_eq {blockSize : ℕ} {data received fec : List (List UInt8)}
    {nos erased : List ℕ} (h : Stripe blockSize data received fec nos erased) {i : ℕ}
    (hi : i < nos.length) {t : ℕ} (ht : t < blockSize) :
    byteAt fec i t + (∑ j ∈ Finset.range received.length,
        if 0 + j ∈ erased then 0 else coefficient (nos.getD i 0) (0 + j) * byteAt received j t)
      = ∑ c ∈ Finset.range nos.length,
          coefficient (nos.getD i 0) (erased.getD c 0) * byteAt data (erased.getD c 0) t := by
  have hnodup : erased.Nodup := h.sorted.imp fun hab => Nat.ne_of_lt hab
  rw [h.parity i hi t ht, parityByte, h.receivedBlocks.length, ← Finset.sum_add_distrib, ← h.length_eq,
    ← sum_erased hnodup h.erased_lt
      fun j => coefficient (nos.getD i 0) j * byteAt data j t]
  refine Finset.sum_congr rfl fun j hj => ?_
  rw [Nat.zero_add]
  split
  · rw [add_zero]
  · rename_i hkept
    have hsame : byteAt received j t = byteAt data j t := by
      rw [byteAt, h.kept j (Finset.mem_range.mp hj) hkept, byteAt]
    rw [hsame]
    exact Gf256.ext UInt8.xor_self

/-- `fec_decode` either reports failure and leaves the blocks as they are, because the matrix of
the erased columns is singular, or it is invertible and the data blocks are restored. -/
theorem Stripe.fecDecode_spec {blockSize : ℕ} {data received fec : List (List UInt8)}
    {nos erased : List ℕ} (h : Stripe blockSize data received fec nos erased) :
    (fecDecode blockSize received fec nos erased = some (false, received)
        ∧ ¬ IsUnit (coefficients nos.length nos erased)) ∨
      (fecDecode blockSize received fec nos erased = some (true, data)
        ∧ IsUnit (coefficients nos.length nos erased)) := by
  have hsize : 0 + received.length ≤ 128 := by
    rw [h.receivedBlocks.length, Nat.zero_add]
    exact h.length_le
  obtain ⟨e, reduced, hreduce, hr, hbyte⟩ := reduceLoop_spec rfl h.nos_lt h.length_eq h.sorted
    received 0 0 h.receivedBlocks.size hsize (erasedAt_zero erased) h.fecBlocks
  have herased128 : ∀ a ∈ erased, a < 128 := fun a ha => (h.erased_lt a ha).trans_le h.length_le
  obtain ⟨m, hmatrix, hmlen, hm⟩ := erasedMatrix_spec rfl h.nos_lt h.length_eq herased128
  have hmat : mat nos.length m = coefficients nos.length nos erased := Matrix.ext hm
  have hlen : fec.length = nos.length := h.fecBlocks.length
  cases hinv : invertMat m nos.length with
  | none =>
    refine Or.inl ⟨?_, ?_⟩
    · simp [fecDecode, hlen, hreduce, hmatrix, hinv]
    · rw [← hmat]
      rcases invertMat_spec hmlen with ⟨-, hsing⟩ | ⟨inv, hsome, -⟩
      · exact hsing
      · rw [hinv] at hsome
        cases hsome
  | some inv =>
    obtain ⟨hilen, hone⟩ := invertMat_some hmlen hinv
    have hnodup : erased.Nodup := h.sorted.imp fun hab => Nat.ne_of_lt hab
    obtain ⟨out, hrebuild, hout, hkeep, hnew⟩ := rebuildBlocks_spec hr hilen erased h.erased_lt
      hnodup 0 (by rw [Nat.zero_add, h.length_eq]) h.receivedBlocks
    have heq : out = data := by
      refine hout.ext h.dataBlocks fun i hi t ht => ?_
      by_cases hin : i ∈ erased
      · obtain ⟨r, hrlt, rfl⟩ := List.getElem_of_mem hin
        have hr' : r < nos.length := h.length_eq ▸ hrlt
        have hget : erased.getD r 0 = erased[r] := List.getD_eq_getElem _ _ hrlt
        have hv := hnew r hrlt t ht
        -- `inv * coefficients = 1`, applied to the erased bytes
        have hsys : ∀ c : Fin nos.length, byteAt reduced c t
            = (mat nos.length m *ᵥ fun c => byteAt data (erased.getD c 0) t) c := by
          intro c
          rw [hbyte c c.isLt t ht, h.reduced_eq c.isLt ht, hmat, mulVec, dotProduct,
            Finset.sum_range]
          rfl
        have hprod : ((mat nos.length inv * mat nos.length m) *ᵥ
            fun c => byteAt data (erased.getD c 0) t) ⟨r, hr'⟩ = byteAt data (erased.getD r 0) t := by
          rw [hone, one_mulVec]
        rw [← hget, hv, ← hprod, ← mulVec_mulVec, mulVec, dotProduct, Finset.sum_range]
        refine Finset.sum_congr rfl fun c _ => ?_
        rw [hsys c, Nat.zero_add]
        rfl
      · rw [hkeep i hin t ht, byteAt, h.kept i hi hin, byteAt]
    rw [heq] at hrebuild
    refine Or.inr ⟨by simp [fecDecode, hlen, hreduce, hmatrix, hinv, hrebuild], ?_⟩
    rw [← hmat]
    exact IsUnit.of_mul_eq_one_right _ hone

/-- Pairwise distinct parity numbers give an invertible matrix. -/
theorem Stripe.coefficients_isUnit {blockSize : ℕ} {data received fec : List (List UInt8)}
    {nos erased : List ℕ} (h : Stripe blockSize data received fec nos erased) (hnos : nos.Nodup) :
    IsUnit (coefficients nos.length nos erased) := by
  have hno : ∀ r : Fin nos.length, nos.getD r 0 = nos[r] := fun r => List.getD_eq_getElem _ _ r.isLt
  have her : ∀ c : Fin nos.length, ∃ hc : c < erased.length, erased.getD c 0 = erased[c] :=
    fun c =>
      have hc : c < erased.length := h.length_eq.symm ▸ c.isLt
      ⟨hc, List.getD_eq_getElem _ _ hc⟩
  have hnolt : ∀ r : Fin nos.length, nos.getD r 0 < 128 := fun r => by
    rw [hno]
    exact h.nos_lt _ (List.getElem_mem _)
  have herlt : ∀ c : Fin nos.length, erased.getD c 0 < 128 := fun c => by
    obtain ⟨hc, heq⟩ := her c
    rw [heq]
    exact (h.erased_lt _ (List.getElem_mem _)).trans_le h.length_le
  have hnodup : erased.Nodup := h.sorted.imp fun hab => Nat.ne_of_lt hab
  have hx : Function.Injective fun r : Fin nos.length => point (128 + nos.getD r 0) := by
    intro r s hrs
    have hr := hnolt r
    have hs := hnolt s
    have heq := point_inj (by omega) (by omega) hrs
    have hval : nos[r] = nos[s] := by
      rw [← hno, ← hno]
      omega
    exact Fin.ext ((List.Nodup.getElem_inj_iff hnos).mp hval)
  have hy : Function.Injective fun c : Fin nos.length => point (erased.getD c 0) := by
    intro c d hcd
    have hc := herlt c
    have hd := herlt d
    have heq := point_inj (by omega) (by omega) hcd
    obtain ⟨hc', hcv⟩ := her c
    obtain ⟨hd', hdv⟩ := her d
    rw [hcv, hdv] at heq
    exact Fin.ext ((List.Nodup.getElem_inj_iff hnodup).mp heq)
  refine Cauchy.cauchy_isUnit hx hy fun r c heq => ?_
  have hr := hnolt r
  have hc := herlt c
  have := point_inj (by omega) (by omega) heq
  omega

/-- A parity number that occurs twice makes the matrix singular. -/
theorem not_isUnit_coefficients {nos erased : List ℕ} (hnos : ¬ nos.Nodup) :
    ¬ IsUnit (coefficients nos.length nos erased) := by
  rw [List.nodup_iff_injective_get, Function.Injective] at hnos
  push Not at hnos
  obtain ⟨r, s, hrs, hne⟩ := hnos
  have hrow : coefficients nos.length nos erased r = coefficients nos.length nos erased s := by
    funext c
    have hr : nos.getD r 0 = nos.get r := List.getD_eq_getElem _ _ r.isLt
    have hs : nos.getD s 0 = nos.get s := List.getD_eq_getElem _ _ s.isLt
    rw [coefficients, coefficients, hr, hs, hrs]
  rw [Matrix.isUnit_iff_isUnit_det, Matrix.det_zero_of_row_eq hne hrow]
  exact not_isUnit_zero

theorem byteAt_map_getD {parity : List (List UInt8)} {nos : List ℕ} {i : ℕ} (hi : i < nos.length)
    (t : ℕ) : byteAt (nos.map fun no => parity.getD no []) i t = byteAt parity (nos.getD i 0) t := by
  have hi' : i < (nos.map fun no => parity.getD no []).length := by rwa [List.length_map]
  rw [byteAt, byteAt, List.getD_eq_getElem _ _ hi', List.getElem_map, List.getD_eq_getElem _ _ hi]

/-- Any choice of parity blocks that `fec_encode` computed makes a stripe. -/
theorem stripe_of_fecEncode {blockSize nrFec : ℕ} {data received fec₀ parity : List (List UInt8)}
    {nos erased : List ℕ} (hne : data ≠ []) (hlen : data.length ≤ 128) (hnrFec : nrFec ≤ 128)
    (hd : Blocks blockSize data.length data) (hf : Blocks blockSize nrFec fec₀)
    (henc : fecEncode blockSize data fec₀ = some parity)
    (hr : Blocks blockSize data.length received)
    (hkept : ∀ i < data.length, i ∉ erased → received.getD i [] = data.getD i [])
    (hsorted : erased.Pairwise (· < ·)) (herased : ∀ a ∈ erased, a < data.length)
    (hcount : erased.length = nos.length) (hnos : ∀ no ∈ nos, no < nrFec) :
    Stripe blockSize data received (nos.map fun no => parity.getD no []) nos erased := by
  obtain ⟨parity', henc', hp, hbyte⟩ := fecEncode_spec hne hlen hnrFec hd hf
  rw [henc] at henc'
  obtain rfl := Option.some.inj henc'
  refine
    { length_le := hlen
      dataBlocks := hd
      receivedBlocks := hr
      kept := hkept
      fecBlocks := ⟨by rw [List.length_map], ?_⟩
      parity := ?_
      nos_lt := fun no h => (hnos no h).trans_le hnrFec
      length_eq := hcount
      sorted := hsorted
      erased_lt := herased }
  · intro b hb
    obtain ⟨no, hno, rfl⟩ := List.mem_map.mp hb
    exact hp.getD (hnos no hno)
  · intro i hi t ht
    have hmem : nos.getD i 0 ∈ nos := by
      rw [List.getD_eq_getElem _ _ hi]
      exact List.getElem_mem hi
    rw [byteAt_map_getD hi, hbyte _ (hnos _ hmem) t ht]

/-- Whatever `fec_encode` computes, as many distinct parity blocks as data blocks are erased
restore the stripe, and the contents of the erased blocks and of the parity buffers before the
call do not matter. -/
theorem fecDecode_fecEncode (blockSize nrFec : ℕ) (data received fec₀ : List (List UInt8))
    (nos erased : List ℕ) (hne : data ≠ []) (hlen : data.length ≤ 128) (hnrFec : nrFec ≤ 128)
    (hd : Blocks blockSize data.length data) (hf : Blocks blockSize nrFec fec₀)
    (hr : Blocks blockSize data.length received)
    (hkept : ∀ i < data.length, i ∉ erased → received.getD i [] = data.getD i [])
    (hsorted : erased.Pairwise (· < ·)) (herased : ∀ a ∈ erased, a < data.length)
    (hcount : erased.length = nos.length) (hnos : ∀ no ∈ nos, no < nrFec) (hnodup : nos.Nodup) :
    ∃ parity, fecEncode blockSize data fec₀ = some parity ∧ Blocks blockSize nrFec parity ∧
      fecDecode blockSize received (nos.map fun no => parity.getD no []) nos erased
        = some (true, data) := by
  obtain ⟨parity, henc, hp, -⟩ := fecEncode_spec hne hlen hnrFec hd hf
  have hstripe := stripe_of_fecEncode hne hlen hnrFec hd hf henc hr hkept hsorted herased hcount hnos
  refine ⟨parity, henc, hp, (hstripe.fecDecode_spec.resolve_left fun hfail => ?_).1⟩
  exact hfail.2 (hstripe.coefficients_isUnit hnodup)

/-- Two of three blocks of two bytes, from parity blocks 3 and 1 of four. -/
theorem fecDecode_fecEncode_two_of_three :
    ∃ parity, fecEncode 2 [[1, 2], [3, 4], [5, 6]] (List.replicate 4 [0, 0]) = some parity ∧
      Blocks 2 4 parity ∧
      fecDecode 2 [[9, 9], [3, 4], [0, 7]] ([3, 1].map fun no => parity.getD no []) [3, 1] [0, 2]
        = some (true, [[1, 2], [3, 4], [5, 6]]) :=
  fecDecode_fecEncode 2 4 [[1, 2], [3, 4], [5, 6]] [[9, 9], [3, 4], [0, 7]]
    (List.replicate 4 [0, 0]) [3, 1] [0, 2] (by decide) (by decide) (by decide)
    ⟨rfl, by decide⟩ ⟨rfl, by decide⟩ ⟨rfl, by decide⟩ (by decide) (by decide) (by decide) rfl
    (by decide) (by decide)

end Udpcast.Fec
