import Mathlib.Data.Finset.Card
import Mathlib.Data.BitVec
import Mathlib.Data.Finset.Range

/-!
# The bitmaps of a slice (senddata.rs:367-373, receivedata.rs:449-454)

The maps of blocks and of participants are arrays of 128 bytes; bit `i` of a map is bit `i % 8` of
byte `i / 8`.  Here such an array is one number of 1024 bits in the same order.
-/

namespace Udpcast

/-- `[u8; 128]` -/
abbrev Bitmap : Type := BitVec 1024

namespace Bitmap

/-- `bit_is_set` (senddata.rs:367-369); an index from 1024 on is out of range. -/
def bitIsSet (m : Bitmap) (bit : ℕ) : Option Bool := if bit < 1024 then some (m.getLsbD bit) else none

/-- The map with one more bit. -/
def insert (m : Bitmap) (bit : ℕ) : Bitmap := m ||| BitVec.twoPow 1024 bit

/-- `set_bit` (senddata.rs:371-373). -/
def setBit (m : Bitmap) (bit : ℕ) : Option Bitmap := if bit < 1024 then some (insert m bit) else none

/-- The map without a bit: `map[bit / 8] &= !(1 << (bit % 8))`. -/
def erase (m : Bitmap) (bit : ℕ) : Bitmap := m &&& ~~~ BitVec.twoPow 1024 bit

/-- The indices of the bits that are set. -/
def bits (m : Bitmap) : Finset ℕ := (Finset.range 1024).filter fun i => m.getLsbD i

@[simp] theorem mem_bits {m : Bitmap} {i : ℕ} : i ∈ bits m ↔ m.getLsbD i = true := by
  rw [bits, Finset.mem_filter, Finset.mem_range, and_iff_right_iff_imp]
  intro h
  by_contra hlt
  rw [BitVec.getLsbD_of_ge m i (by omega)] at h
  cases h

theorem bitIsSet_eq {m : Bitmap} {i : ℕ} (hi : i < 1024) : bitIsSet m i = some (m.getLsbD i) :=
  if_pos hi

theorem bitIsSet_eq_some {m : Bitmap} {i : ℕ} {b : Bool} :
    bitIsSet m i = some b ↔ i < 1024 ∧ m.getLsbD i = b := by
  rw [bitIsSet]
  by_cases hi : i < 1024
  · rw [if_pos hi, Option.some_inj]
    exact ⟨fun h => ⟨hi, h⟩, And.right⟩
  · rw [if_neg hi]
    exact ⟨nofun, fun h => absurd h.1 hi⟩

theorem setBit_eq {m : Bitmap} {i : ℕ} (hi : i < 1024) : setBit m i = some (insert m i) :=
  if_pos hi

@[simp] theorem getLsbD_insert {m : Bitmap} {i : ℕ} (hi : i < 1024) (j : ℕ) :
    (insert m i).getLsbD j = (m.getLsbD j || decide (j = i)) := by
  rw [insert, BitVec.getLsbD_or, BitVec.getLsbD_twoPow]
  by_cases h : j = i
  · subst h
    simp [hi]
  · simp [h, Ne.symm h]

@[simp] theorem getLsbD_erase {m : Bitmap} {i : ℕ} (j : ℕ) :
    (erase m i).getLsbD j = (m.getLsbD j && !decide (j = i)) := by
  rw [erase, BitVec.getLsbD_and, BitVec.getLsbD_not, BitVec.getLsbD_twoPow]
  by_cases hj : j < 1024
  · by_cases h : j = i
    · subst h
      simp [hj]
    · simp [h, hj, Ne.symm h]
  · rw [BitVec.getLsbD_of_ge m j (by omega)]
    simp

theorem insert_comm (m : Bitmap) (i j : ℕ) : insert (insert m i) j = insert (insert m j) i := by
  rw [insert, insert, insert, insert, BitVec.or_assoc, BitVec.or_comm (BitVec.twoPow 1024 i),
    BitVec.or_assoc]

theorem bits_insert {m : Bitmap} {i : ℕ} (hi : i < 1024) :
    bits (insert m i) = Insert.insert i (bits m) := by
  refine Finset.ext fun j => ?_
  rw [mem_bits, getLsbD_insert hi, Finset.mem_insert, mem_bits, Bool.or_eq_true, decide_eq_true_iff,
    or_comm]

theorem bits_erase {m : Bitmap} {i : ℕ} : bits (erase m i) = (bits m).erase i := by
  refine Finset.ext fun j => ?_
  rw [mem_bits, getLsbD_erase, Finset.mem_erase, mem_bits, Bool.and_eq_true, Bool.not_eq_true',
    decide_eq_false_iff_not, and_comm]

@[simp] theorem getLsbD_zero (i : ℕ) : (0 : Bitmap).getLsbD i = false := BitVec.getLsbD_zero

theorem bits_zero : bits 0 = ∅ := by
  refine Finset.eq_empty_of_forall_notMem fun j hj => ?_
  rw [mem_bits] at hj
  simp at hj

end Bitmap

end Udpcast
