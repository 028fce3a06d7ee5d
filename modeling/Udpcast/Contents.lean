import Udpcast.Fec.Coder
import Udpcast.Lib.Ring
import Udpcast.Transfer

/-!
# What the datagrams of a transfer carry

A DATA packet carries a block of its slice, a FEC packet a parity block of one stripe.  The stripes
take the blocks of a slice in turn; for the coder the last block is padded with zeros.
-/

namespace Udpcast

/-! ### Blocks -/

/-- The number of blocks of a slice: `(bytes + block_size - 1) / block_size`. -/
def blocksIn (blockSize bytes : ℕ) : ℕ := (bytes + blockSize - 1) / blockSize

theorem lt_blocksIn {bs bytes k : ℕ} (hpos : 0 < bs) : k < blocksIn bs bytes ↔ k * bs < bytes := by
  rw [blocksIn, Nat.lt_iff_add_one_le, Nat.le_div_iff_mul_le hpos, Nat.add_mul, Nat.one_mul]
  omega

theorem mod_of_shorter {bs bytes k : ℕ} (hk : k * bs < bytes) (hless : bytes - k * bs < bs) :
    bytes % bs = bytes - k * bs := by
  have hbytes : bytes = bytes - k * bs + k * bs := by omega
  rw [hbytes, Nat.add_mul_mod_self_right, Nat.add_sub_cancel, Nat.mod_eq_of_lt hless]

/-- A block is shorter than the others if it is the last one and does not fill up. -/
theorem shorter_iff_last {bs bytes k : ℕ} (hpos : 0 < bs) (hk : k * bs < bytes) :
    bytes - k * bs < bs ↔ k = blocksIn bs bytes - 1 ∧ 0 < bytes % bs := by
  have hlt : k < blocksIn bs bytes := (lt_blocksIn hpos).mpr hk
  have hnext : k + 1 < blocksIn bs bytes ↔ (k + 1) * bs < bytes := lt_blocksIn hpos
  rw [Nat.add_mul, Nat.one_mul] at hnext
  constructor
  · intro hless
    have hmod := mod_of_shorter hk hless
    exact ⟨by omega, by omega⟩
  · rintro ⟨hlast, hmod⟩
    by_contra hge
    have hwhole : bytes = (k + 1) * bs := by
      rw [Nat.add_mul, Nat.one_mul]
      omega
    rw [hwhole, Nat.mul_mod_left] at hmod
    exact Nat.lt_irrefl _ hmod

theorem length_blockOf (bs : ℕ) (content : List UInt8) (k : ℕ) :
    (blockOf bs content k).length = min bs (content.length - k * bs) := by
  rw [blockOf, List.length_take, List.length_drop]

/-- A block that is read from a region of the ring is a block of what the region has. -/
theorem window_block {N b bytes bs k : ℕ} (hk : k * bs < bytes) (mem : ℕ → UInt8) :
    Ring.window N (b + k * bs) (min bs (bytes - k * bs)) mem
      = blockOf bs (Ring.window N b bytes mem) k := by
  rw [blockOf]
  rcases Nat.le_total bs (bytes - k * bs) with h | h
  · rw [Nat.min_eq_left h]
    exact (Ring.window_slice (by omega) mem).symm
  · have hall : (Ring.window N b bytes mem).drop (k * bs)
        = Ring.window N (b + k * bs) (bytes - k * bs) mem := by
      rw [← Ring.window_slice (Nat.le_of_eq (Nat.add_sub_of_le hk.le)) mem,
        List.take_of_length_le (by rw [List.length_drop, Ring.length_window])]
    rw [Nat.min_eq_right h, hall, List.take_of_length_le (by rw [Ring.length_window]; exact h)]

/-- A region of the ring has the bytes of a slice when it has each of its blocks. -/
theorem window_of_blocks {N base bs : ℕ} {content : List UInt8} {mem : ℕ → UInt8} (hpos : 0 < bs)
    (h : ∀ k, k * bs < content.length →
      Ring.window N (base + k * bs) (min bs (content.length - k * bs)) mem = blockOf bs content k) :
    Ring.window N base content.length mem = content := by
  refine List.ext_getElem (Ring.length_window ..) fun j hj hj' => ?_
  have hmod := Nat.mod_lt j hpos
  have hdiv := Nat.div_add_mod' j bs
  have hlt : j / bs * bs < content.length := by omega
  have hblock := List.getElem_of_eq (h (j / bs) hlt) (i := j % bs) (by
    rw [Ring.length_window]
    omega)
  simp only [Ring.window, blockOf, List.getElem_map, List.getElem_range, List.getElem_take,
    List.getElem_drop, Nat.add_assoc, hdiv] at hblock ⊢
  exact hblock

/-- A block as the coder gets it. -/
def paddedBlock (blockSize : ℕ) (content : List UInt8) (k : ℕ) : List UInt8 :=
  blockOf blockSize content k ++ List.replicate (blockSize - (blockOf blockSize content k).length) 0

theorem length_paddedBlock (bs : ℕ) (content : List UInt8) (k : ℕ) :
    (paddedBlock bs content k).length = bs := by
  have hle : (blockOf bs content k).length ≤ bs := by
    rw [length_blockOf]
    omega
  rw [paddedBlock, List.length_append, List.length_replicate]
  omega

theorem paddedBlock_of_full {bs k : ℕ} {content : List UInt8} (h : k * bs + bs ≤ content.length) :
    paddedBlock bs content k = blockOf bs content k := by
  have hlen : (blockOf bs content k).length = bs := by
    rw [length_blockOf]
    omega
  rw [paddedBlock, hlen, Nat.sub_self, List.replicate_zero, List.append_nil]

/-- Whole blocks, or a single shorter one. -/
def WholeBlocks (blockSize : ℕ) (content : List UInt8) : Prop :=
  blockSize ∣ content.length ∨ content.length < blockSize

theorem WholeBlocks.full {bs : ℕ} {content : List UInt8} (h : WholeBlocks bs content) {j k : ℕ}
    (hjk : j ≠ k) (hj : j * bs < content.length) (hk : k * bs < content.length) :
    j * bs + bs ≤ content.length := by
  rcases h with ⟨m, hm⟩ | hshort
  · rw [hm, Nat.mul_comm] at hj ⊢
    have hjm : j < m := Nat.lt_of_mul_lt_mul_left hj
    calc bs * j + bs = bs * (j + 1) := by rw [Nat.mul_add, Nat.mul_one]
      _ ≤ bs * m := Nat.mul_le_mul_left _ hjm
  · have hzero : ∀ i, i * bs < content.length → i = 0 := fun i hi => by
      by_contra hne
      have := Nat.le_mul_of_pos_left bs (Nat.pos_of_ne_zero hne)
      omega
    exact absurd ((hzero j hj).trans (hzero k hk).symm) hjk

theorem take_paddedBlock (bs : ℕ) (content : List UInt8) (k : ℕ) :
    (paddedBlock bs content k).take (min bs (content.length - k * bs)) = blockOf bs content k := by
  rw [paddedBlock, List.take_left' (length_blockOf ..)]

/-! ### Stripes -/

section Stripes

variable {blocks stripes stripe : ℕ}

theorem mem_stripeIndices {i : ℕ} (hpos : 0 < stripes) (hi : i ∈ stripeIndices blocks stripes stripe) :
    i < blocks ∧ ∃ j, i = stripe + j * stripes := by
  obtain ⟨j, hj, rfl⟩ := List.mem_map.mp hi
  refine ⟨?_, j, rfl⟩
  have hlt : (j + 1) * stripes ≤ blocks - stripe + (stripes - 1) :=
    (Nat.le_div_iff_mul_le hpos).mp (List.mem_range.mp hj)
  rw [Nat.add_mul, Nat.one_mul] at hlt
  omega

theorem mod_of_mem_stripeIndices {i : ℕ} (hlt : stripe < stripes)
    (hi : i ∈ stripeIndices blocks stripes stripe) : i % stripes = stripe := by
  obtain ⟨-, j, rfl⟩ := mem_stripeIndices (by omega) hi
  rw [Nat.add_mul_mod_self_right, Nat.mod_eq_of_lt hlt]

theorem mem_stripeIndices_mod {k : ℕ} (hpos : 0 < stripes) (hk : k < blocks) :
    k ∈ stripeIndices blocks stripes (k % stripes) := by
  have hdiv := Nat.mod_add_div' k stripes
  refine List.mem_map.mpr ⟨k / stripes, List.mem_range.mpr ?_, hdiv⟩
  rw [Nat.lt_iff_add_one_le, Nat.le_div_iff_mul_le hpos, Nat.add_mul, Nat.one_mul]
  omega

theorem nodup_stripeIndices (hpos : 0 < stripes) : (stripeIndices blocks stripes stripe).Nodup := by
  refine List.Nodup.map (fun a b hab => ?_) List.nodup_range
  exact Nat.eq_of_mul_eq_mul_right hpos (Nat.add_left_cancel hab)

theorem stripeIndices_eq_nil (hpos : 0 < stripes) (h : blocks ≤ stripe) :
    stripeIndices blocks stripes stripe = [] := by
  refine List.eq_nil_iff_forall_not_mem.mpr fun i hi => ?_
  obtain ⟨hlt, j, rfl⟩ := mem_stripeIndices hpos hi
  omega

theorem length_stripeIndices : (stripeIndices blocks stripes stripe).length
    = (blocks - stripe + (stripes - 1)) / stripes := by
  rw [stripeIndices, List.length_map, List.length_range]

end Stripes

/-- The data blocks of one stripe. -/
def stripeOf (blockSize stripes : ℕ) (content : List UInt8) (stripe : ℕ) : List (List UInt8) :=
  (stripeIndices (blocksIn blockSize content.length) stripes stripe).map (paddedBlock blockSize content)

theorem blocks_stripeOf (bs stripes : ℕ) (content : List UInt8) (stripe : ℕ) :
    Fec.Blocks bs (stripeOf bs stripes content stripe).length (stripeOf bs stripes content stripe) where
  length := rfl
  size b hb := by
    obtain ⟨k, -, rfl⟩ := List.mem_map.mp hb
    exact length_paddedBlock bs content k

/-- Parity block `blockNo` of a slice, unless its stripe has no blocks. -/
structure IsParity (blockSize stripes : ℕ) (content : List UInt8) (blockNo : ℕ)
    (payload : List UInt8) : Prop where
  size : payload.length = blockSize
  no_lt : blockNo / stripes < 128
  stripe_le : (stripeOf blockSize stripes content (blockNo % stripes)).length ≤ 128
  parity : stripeOf blockSize stripes content (blockNo % stripes) ≠ [] → ∀ t < blockSize,
    Fec.byteAt [payload] 0 t
      = Fec.parityByte (stripeOf blockSize stripes content (blockNo % stripes)) (blockNo / stripes) t

theorem isParity_zero {blockSize : ℕ} (content : List UInt8) (blockNo : ℕ) {payload : List UInt8}
    (h : payload.length = blockSize) : IsParity blockSize 0 content blockNo payload := by
  have hnone : stripeOf blockSize 0 content (blockNo % 0) = [] := by
    rw [stripeOf, stripeIndices, Nat.div_zero]
    rfl
  refine ⟨h, by rw [Nat.div_zero]; omega, by rw [hnone, List.length_nil]; omega, fun hne => ?_⟩
  exact absurd hnone hne

/-! ### Datagrams -/

/-- The block and the parity block that a packet brings. -/
def Datagram.blockNos : Datagram → List ℕ
  | .data msg _ => [msg.blockNo]
  | _ => []

def Datagram.parityNos : Datagram → List ℕ
  | .fec msg _ => [msg.blockNo]
  | _ => []

namespace Transfer

variable (t : Transfer)

/-- The bytes of slice number `s`. -/
def content (s : ℤ) : List UInt8 := t.slices.getD s.toNat []

/-- Every slice consists of whole blocks or of a single shorter one. -/
def Whole : Prop := ∀ c ∈ t.slices, WholeBlocks t.blockSize c

/-- No stripe of a slice has more than 128 blocks. -/
def StripesFit (stripes : ℕ) : Prop :=
  ∀ c ∈ t.slices, blocksIn t.blockSize c.length ≤ 128 * stripes

/-- A datagram of the transfer with what it carries.  A number of stripes that is not positive is
ignored by the receiver, like 0. -/
def Carries (stripes : ℕ) : Datagram → Prop
  | .data msg payload => t.Describes (.data msg payload) ∧
      payload = blockOf t.blockSize (t.content msg.sliceNo) msg.blockNo
  | .fec msg payload => t.Describes (.fec msg payload) ∧ msg.stripes.toNat = stripes ∧
      IsParity t.blockSize stripes (t.content msg.sliceNo) msg.blockNo payload
  | d => t.Describes d

variable {t}

theorem Carries.describes {stripes : ℕ} {d : Datagram} (h : t.Carries stripes d) :
    t.Describes d := by
  cases d with
  | data msg payload => exact h.1
  | fec msg payload => exact h.1
  | reqack msg => exact h
  | skipped => trivial
  | unexpected => trivial

theorem length_content {s : ℤ} (hs : 0 ≤ s) : (t.content s).length = t.size s := by
  rw [size, if_pos hs, content]

theorem length_stripeOf_le {stripes : ℕ} (h : t.StripesFit stripes) {c : List UInt8}
    (hc : c ∈ t.slices) {stripe : ℕ} (hlt : stripe < stripes) :
    (stripeOf t.blockSize stripes c stripe).length ≤ 128 := by
  have hblocks := h c hc
  rw [stripeOf, List.length_map, length_stripeIndices, ← Nat.lt_succ_iff,
    Nat.div_lt_iff_lt_mul (by omega)]
  omega

theorem content_mem {s : ℤ} (h : 0 < (t.content s).length) : t.content s ∈ t.slices := by
  rw [content, List.getD_eq_getElem?_getD] at h ⊢
  cases hget : t.slices[s.toNat]? with
  | none =>
    rw [hget] at h
    simp at h
  | some c => exact List.mem_of_getElem? hget

end Transfer

end Udpcast
