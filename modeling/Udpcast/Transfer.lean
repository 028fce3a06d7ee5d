import Mathlib.Data.List.GetD
import Udpcast.Protocol

/-!
# The slices of one transfer

A sender cuts its input into data slices of at most 1024 blocks and numbers them from 0; the number
after the last data slice is that of the end marker, a slice of zero bytes.  A datagram of the
transfer carries the number and the size of one of these slices.
-/

namespace Udpcast

/-- Block `k` of the contents of a slice. -/
def blockOf (blockSize : ℕ) (content : List UInt8) (k : ℕ) : List UInt8 :=
  (content.drop (k * blockSize)).take blockSize

/-- The data slices of a transfer, in order. -/
structure Transfer where
  blockSize : ℕ
  slices : List (List UInt8)
  blockSize_pos : 0 < blockSize
  /-- The size of a slice fits the field of a message. -/
  blockSize_lt : maxSliceSize * blockSize < 2 ^ 31
  slice_pos : ∀ s ∈ slices, 0 < s.length
  slice_le : ∀ s ∈ slices, s.length ≤ maxSliceSize * blockSize

namespace Transfer

variable (t : Transfer)

/-- The number of the end marker. -/
def endNo : ℕ := t.slices.length

/-- The bytes of slice number `s`; there are none in the end marker. -/
def size (s : ℤ) : ℕ := if 0 ≤ s then (t.slices.getD s.toNat []).length else 0

/-- `s` is the number and `bytes` the size of a slice. -/
def IsSlice (s bytes : ℤ) : Prop := 0 ≤ s ∧ s ≤ t.endNo ∧ bytes = t.size s

instance (s bytes : ℤ) : Decidable (t.IsSlice s bytes) :=
  inferInstanceAs (Decidable (_ ∧ _ ∧ _))

/-- A datagram of the transfer, as far as its slice number, size and block number go. -/
def Describes : Datagram → Prop
  | .data msg _ => t.IsSlice msg.sliceNo msg.bytes ∧
      msg.blockNo * t.blockSize < t.size msg.sliceNo
  | .fec msg _ => t.IsSlice msg.sliceNo msg.bytes ∧ 0 < t.size msg.sliceNo
  | .reqack msg => t.IsSlice msg.sliceNo msg.bytes
  | .skipped => True
  | .unexpected => True

instance : (d : Datagram) → Decidable (t.Describes d)
  | .data _ _ => inferInstanceAs (Decidable (_ ∧ _))
  | .fec _ _ => inferInstanceAs (Decidable (_ ∧ _))
  | .reqack _ => inferInstanceAs (Decidable (t.IsSlice _ _))
  | .skipped => inferInstanceAs (Decidable True)
  | .unexpected => inferInstanceAs (Decidable True)

theorem size_le (s : ℤ) : t.size s ≤ maxSliceSize * t.blockSize := by
  rw [size]
  split
  · rw [List.getD_eq_getElem?_getD]
    cases h : t.slices[s.toNat]? with
    | none => simp
    | some x => exact t.slice_le x (List.mem_of_getElem? h)
  · exact Nat.zero_le _

theorem size_pos_iff {s : ℤ} (hs : 0 ≤ s) : 0 < t.size s ↔ s < t.endNo := by
  rw [size, if_pos hs, endNo]
  constructor
  · intro h
    by_contra hge
    rw [List.getD_eq_default _ _ (by omega)] at h
    simp at h
  · intro h
    have hlt : s.toNat < t.slices.length := by omega
    rw [List.getD_eq_getElem _ _ hlt]
    exact t.slice_pos _ (List.getElem_mem hlt)

theorem asUsize_size {s bytes : ℤ} (h : t.IsSlice s bytes) : asUsize bytes = t.size s := by
  have hle := t.size_le s
  have hlt := t.blockSize_lt
  rw [h.2.2, asUsize_natCast (by omega)]

variable {t}

theorem Describes.isSlice {d : Datagram} (h : t.Describes d) {s bytes : ℤ}
    (hd : d.slice = some (s, bytes)) : t.IsSlice s bytes := by
  cases d with
  | data msg _ =>
    obtain ⟨rfl, rfl⟩ := Prod.mk.inj (Option.some.inj hd)
    exact h.1
  | fec msg _ =>
    obtain ⟨rfl, rfl⟩ := Prod.mk.inj (Option.some.inj hd)
    exact h.1
  | reqack msg =>
    obtain ⟨rfl, rfl⟩ := Prod.mk.inj (Option.some.inj hd)
    exact h
  | skipped => cases hd
  | unexpected => cases hd

theorem Describes.size_pos {d : Datagram} (h : t.Describes d) {s bytes : ℤ}
    (hd : d.slice = some (s, bytes)) (hreq : d.isReqack = false) : 0 < t.size s := by
  cases d with
  | data msg _ =>
    obtain ⟨rfl, rfl⟩ := Prod.mk.inj (Option.some.inj hd)
    exact Nat.lt_of_le_of_lt (Nat.zero_le _) h.2
  | fec msg _ =>
    obtain ⟨rfl, rfl⟩ := Prod.mk.inj (Option.some.inj hd)
    exact h.2
  | reqack msg => cases hreq
  | skipped => cases hd
  | unexpected => cases hd

theorem Describes.blockInRange {d : Datagram} (h : t.Describes d) : d.blockInRange := by
  cases d with
  | data msg _ =>
    have hsize := t.size_le msg.sliceNo
    exact Nat.lt_of_mul_lt_mul_right (Nat.lt_of_lt_of_le h.2 hsize)
  | fec msg _ => trivial
  | reqack msg => trivial
  | skipped => trivial
  | unexpected => trivial

end Transfer

/-- A transfer of ten data slices of two bytes, in blocks of one byte. -/
def tenSlices : Transfer where
  blockSize := 1
  slices := List.replicate 10 [0, 0]
  blockSize_pos := by decide
  blockSize_lt := by decide
  slice_pos := by decide
  slice_le := by decide

/-- A transfer of one slice of five bytes, in blocks of four bytes. -/
def fiveBytes : Transfer where
  blockSize := 4
  slices := [[1, 2, 3, 4, 5]]
  blockSize_pos := Nat.succ_pos 3
  blockSize_lt := by decide
  slice_pos := by decide
  slice_le := by decide

end Udpcast
