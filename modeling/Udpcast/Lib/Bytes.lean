import Mathlib.Algebra.Order.Group.Nat
import Mathlib.Data.Int.ModEq
import Mathlib.Tactic.Positivity
import Mathlib.Tactic.Ring

/-!
# Numbers as bytes

Big-endian numbers of a fixed width, unsigned and in two's complement, and the fields of a buffer.
-/

namespace Bytes

/-- The low `w` bytes of a number, the most significant one first. -/
def toBe : ℕ → ℕ → List UInt8
  | 0, _ => []
  | w + 1, n => toBe w (n / 256) ++ [UInt8.ofNat n]

/-- The number that bytes spell, the most significant one first. -/
def ofBe (l : List UInt8) : ℕ := l.foldl (fun n b => n * 256 + b.toNat) 0

/-- The bytes of a signed number, and the signed number of `w` bytes. -/
def toBeInt (w : ℕ) (x : ℤ) : List UInt8 := toBe w (x % 256 ^ w).toNat
def ofBeInt (w : ℕ) (l : List UInt8) : ℤ := Int.bmod (ofBe l) (256 ^ w)

/-- `buf[a..b]` -/
def field (buf : List UInt8) (a b : ℕ) : List UInt8 := (buf.take b).drop a

@[simp] theorem length_toBe (w n : ℕ) : (toBe w n).length = w := by
  induction w generalizing n with
  | zero => rfl
  | succ w ih => rw [toBe, List.length_append, ih, List.length_singleton]

@[simp] theorem length_toBeInt (w : ℕ) (x : ℤ) : (toBeInt w x).length = w := length_toBe ..

theorem ofBe_concat (l : List UInt8) (b : UInt8) : ofBe (l ++ [b]) = ofBe l * 256 + b.toNat := by
  rw [ofBe, List.foldl_append, List.foldl_cons, List.foldl_nil, ofBe]

theorem ofBe_toBe (w n : ℕ) : ofBe (toBe w n) = n % 256 ^ w := by
  induction w generalizing n with
  | zero =>
    rw [pow_zero, Nat.mod_one]
    rfl
  | succ w ih =>
    have hbyte : (UInt8.ofNat n).toNat = n % 256 := UInt8.toNat_ofNat'
    rw [toBe, ofBe_concat, ih, hbyte, pow_succ, Nat.mul_comm (256 ^ w), Nat.mod_mul, Nat.add_comm,
      Nat.mul_comm]

theorem ofBe_toBe_of_lt {w n : ℕ} (h : n < 256 ^ w) : ofBe (toBe w n) = n := by
  rw [ofBe_toBe, Nat.mod_eq_of_lt h]

theorem ofBeInt_toBeInt (w : ℕ) (x : ℤ) : ofBeInt w (toBeInt w x) = Int.bmod x (256 ^ w) := by
  have hpos : (0 : ℤ) < 256 ^ w := by positivity
  have hnonneg := Int.emod_nonneg x hpos.ne'
  have hlt := Int.emod_lt_of_pos x hpos
  have hnat : (x % 256 ^ w).toNat < 256 ^ w := by
    have hcast : ((x % 256 ^ w).toNat : ℤ) = x % 256 ^ w := Int.toNat_of_nonneg hnonneg
    exact_mod_cast hcast ▸ hlt
  rw [ofBeInt, toBeInt, ofBe_toBe_of_lt hnat, Int.toNat_of_nonneg hnonneg]
  have := Int.emod_bmod (n := 256 ^ w) x
  push_cast at this
  exact this

theorem field_skip {p s : List UInt8} {a b : ℕ} (h : p.length ≤ a) :
    field (p ++ s) a b = field s (a - p.length) (b - p.length) := by
  have hfirst : (p.take b).drop a = [] := List.drop_eq_nil_of_le (by rw [List.length_take]; omega)
  rw [field, field, List.take_append, List.drop_append, hfirst, List.nil_append, List.length_take]
  by_cases hb : p.length ≤ b
  · rw [Nat.min_eq_right hb]
  · rw [Nat.sub_eq_zero_of_le (show b ≤ p.length by omega), List.take_zero, List.drop_nil,
      List.drop_nil]

theorem field_head {m s : List UInt8} {b : ℕ} (h : m.length = b) : field (m ++ s) 0 b = m := by
  rw [field, ← h, List.take_left, List.drop_zero]

/-- The fields of what has been copied into a larger buffer. -/
theorem field_take_append {l s : List UInt8} {a b n : ℕ} (hn : b ≤ n) (hb : b ≤ l.length) :
    field (l.take n ++ s) a b = field l a b := by
  rw [field, field, List.take_append_of_le_length (by rw [List.length_take]; omega), List.take_take,
    Nat.min_eq_left hn]

end Bytes
