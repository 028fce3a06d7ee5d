import Mathlib.Data.UInt
import Udpcast.ReceiveData.Slots
import Udpcast.Wire

/-!
# What is stored when a block counts as received

`process_data_block` stores what has arrived of a block and counts the block.  A datagram is
received into a buffer of 4096 bytes, and its length is not compared with the size of the block.
-/

namespace Udpcast.ReceiveData

open Receiver

/-- Slot `i` receives slice `s` and counts block `k`. -/
def HasBlock (r : Receiver) (i : Fin 8) (s : ℤ) (k : ℕ) : Prop :=
  (r.slices i).state = .receiving ∧ (r.slices i).sliceNo = s ∧
    (r.slices i).retransmitMap.getLsbD k = true

/-- The `n` bytes in the ring from the start of block `k` of slot `i`. -/
def Receiver.blockBytes (r : Receiver) (i : Fin 8) (k n : ℕ) : List UInt8 :=
  Ring.window r.fifo.dataBufSize ((r.slices i).base + k * r.blockSize) n r.fifo.buffer

instance (r : Receiver) (i : Fin 8) (s : ℤ) (k : ℕ) : Decidable (HasBlock r i s k) :=
  inferInstanceAs (Decidable (_ ∧ _ ∧ _))

/-! ### Recovery leaves the blocks that are there -/

/-- Block `k` of slot `i` is there and stays as it is. -/
structure KeepsBlock (i : Fin 8) (k : ℕ) (r r' : Receiver) : Prop where
  base : (r'.slices i).base = (r.slices i).base
  state : (r'.slices i).state = (r.slices i).state
  sliceNo : (r'.slices i).sliceNo = (r.slices i).sliceNo
  fecStripes : (r'.slices i).fecStripes = (r.slices i).fecStripes
  blockSize : r'.blockSize = r.blockSize
  ringSize : r'.fifo.dataBufSize = r.fifo.dataBufSize
  there : (r'.slices i).retransmitMap.getLsbD k = true
  bytes : ∀ n ≤ r.blockSize, r'.blockBytes i k n = r.blockBytes i k n

namespace KeepsBlock

variable {i : Fin 8} {k : ℕ} {r r₁ r' : Receiver}

theorem refl (h : (r.slices i).retransmitMap.getLsbD k = true) : KeepsBlock i k r r :=
  ⟨rfl, rfl, rfl, rfl, rfl, rfl, h, fun _ _ => rfl⟩

theorem trans (h : KeepsBlock i k r r₁) (h' : KeepsBlock i k r₁ r') : KeepsBlock i k r r' where
  base := h'.base.trans h.base
  state := h'.state.trans h.state
  sliceNo := h'.sliceNo.trans h.sliceNo
  fecStripes := h'.fecStripes.trans h.fecStripes
  blockSize := h'.blockSize.trans h.blockSize
  ringSize := h'.ringSize.trans h.ringSize
  there := h'.there
  bytes n hn := (h'.bytes n (by rw [h.blockSize]; exact hn)).trans (h.bytes n hn)

theorem phase (h : KeepsBlock i k r r') (p : Phase) : KeepsBlock i k r { r' with phase := p } :=
  ⟨h.base, h.state, h.sliceNo, h.fecStripes, h.blockSize, h.ringSize, h.there, h.bytes⟩

end KeepsBlock

section Recovery

variable {i : Fin 8} {k : ℕ} {r r' : Receiver}

theorem storeBlock_some {g : ℕ} {row : List UInt8} (h : storeBlock r i g row = some r') :
    g < 1024 ∧ r'.slices i = { r.slices i with
        retransmitMap := Bitmap.insert (r.slices i).retransmitMap g
        dataBlocksTransferred := (r.slices i).dataBlocksTransferred + 1
        blocksTransferred := (r.slices i).blocksTransferred + 1 } ∧
      r'.fifo = { r.fifo with
        buffer := Ring.write r.fifo.dataBufSize (blockStart r i g) row r.fifo.buffer } ∧
      r'.blockSize = r.blockSize := by
  simp only [storeBlock, Option.bind_eq_bind, Option.bind_eq_some_iff] at h
  obtain ⟨fifo, hfifo, map, hmap, h⟩ := h
  obtain rfl := Option.some.inj h
  rw [Bitmap.setBit] at hmap
  split at hmap
  · rename_i hg
    refine ⟨hg, ?_, Fifo.writeAt_frame hfifo, rfl⟩
    rw [emit_slices, modify_slices_self, ← Option.some.inj hmap]
  · cases hmap

theorem storeBlock_keeps {g : ℕ} {row : List UInt8} (hring : r.fifo.dataBufSize = r.blockSize * 4096)
    (hthere : (r.slices i).retransmitMap.getLsbD k = true) (hgk : g ≠ k)
    (hrow : row.length ≤ r.blockSize) (h : storeBlock r i g row = some r') : KeepsBlock i k r r' := by
  obtain ⟨hg, hslot, hfifo, hblock⟩ := storeBlock_some h
  have hk : k < 1024 := by
    by_contra hge
    rw [BitVec.getLsbD_of_ge _ _ (by omega)] at hthere
    cases hthere
  refine ⟨by rw [hslot], by rw [hslot], by rw [hslot], by rw [hslot], hblock, by rw [hfifo], ?_,
    fun n hn => ?_⟩
  · rw [hslot, Bitmap.getLsbD_insert hg, hthere]
    rfl
  · have hdisjoint : Disjoint
        (Ring.cells r.fifo.dataBufSize ((r.slices i).base + g * r.blockSize) row.length)
        (Ring.cells r.fifo.dataBufSize ((r.slices i).base + k * r.blockSize) n) := by
      rcases Nat.lt_or_gt_of_ne hgk with hlt | hlt
      · have hle : (g + 1) * r.blockSize ≤ k * r.blockSize := Nat.mul_le_mul_right _ hlt
        have hmax : k * r.blockSize ≤ 1023 * r.blockSize := Nat.mul_le_mul_right _ (by omega)
        rw [Nat.add_mul, Nat.one_mul] at hle
        exact Ring.disjoint_cells (by omega) (by omega)
      · have hle : (k + 1) * r.blockSize ≤ g * r.blockSize := Nat.mul_le_mul_right _ hlt
        have hmax : g * r.blockSize ≤ 1023 * r.blockSize := Nat.mul_le_mul_right _ (by omega)
        rw [Nat.add_mul, Nat.one_mul] at hle
        exact (Ring.disjoint_cells (by omega) (by omega)).symm
    rw [blockBytes, blockBytes, hfifo, hblock, hslot]
    exact Ring.window_write_of_disjoint (by omega) hdisjoint _

theorem lt_of_erasedBlocks {indices erased : List ℕ} (h : erasedBlocks r i indices = some erased) :
    ∀ g ∈ indices, g < 1024 := by
  rw [erasedBlocks] at h
  induction indices using List.reverseRecOn generalizing erased with
  | nil => exact fun g hg => absurd hg List.not_mem_nil
  | append_singleton l g ih =>
    rw [List.zipIdx_append, List.foldlM_append] at h
    obtain ⟨erased₁, h₁, h⟩ := Option.bind_eq_some_iff.mp h
    intro m hm
    rcases List.mem_append.mp hm with hm | hm
    · exact ih h₁ m hm
    · obtain rfl := List.mem_singleton.mp hm
      obtain ⟨_, h, -⟩ := Option.bind_eq_some_iff.mp h
      obtain ⟨b, hb, -⟩ := Option.bind_eq_some_iff.mp h
      exact (Bitmap.bitIsSet_eq_some.mp hb).1

theorem erasedBlocks_missing {indices erased : List ℕ} (h : erasedBlocks r i indices = some erased)
    {j g : ℕ} (hj : j ∈ erased) (hg : indices[j]? = some g) :
    (r.slices i).retransmitMap.getLsbD g = false := by
  rw [erasedBlocks_eq (lt_of_erasedBlocks h)] at h
  obtain rfl := Option.some.inj h
  have hmissing := (mem_erasedIn.mp hj).2
  rwa [List.getD_eq_getElem?_getD, hg] at hmissing

theorem stripeBlocks_sizes {indices : List ℕ} {blocks : List (List UInt8)}
    (h : stripeBlocks r i indices = some blocks) : ∀ b ∈ blocks, b.length = r.blockSize := by
  intro b hb
  obtain ⟨g, -, hblock⟩ := SendData.mem_of_mapM_some h b hb
  obtain ⟨set, -, hblock⟩ := Option.bind_eq_some_iff.mp hblock
  split at hblock
  · exact Fifo.length_readAt hblock
  · rw [← Option.some.inj hblock, List.length_replicate]

/-- What stays true of the receiver while blocks of slot `i` that are missing are stored and
`complete_slice` is called for. -/
structure StoreInvariant (i : Fin 8) (P : Receiver → Prop) : Prop where
  store : ∀ {q₀ q q' : Receiver} {g : ℕ} {row : List UInt8}, P q₀ → P q →
    (q₀.slices i).retransmitMap.getLsbD g = false → (q.slices i).retransmitMap.getLsbD g = false →
    row.length = q₀.blockSize → storeBlock q i g row = some q' → P q'
  phase : ∀ {q : Receiver} (p : Phase), P q → P { q with phase := p }

section Invariant

variable {P : Receiver → Prop}

/-- A recovered block is stored while the later ones of the stripe are still missing. -/
theorem storeErased_invariant {indices erased : List ℕ} {data : List (List UInt8)} {q : Receiver}
    (hP : StoreInvariant i P) (hindices : indices.Nodup) (herased : erased.Nodup)
    (hdata : ∀ row ∈ data, row.length = r.blockSize) (hr : P r)
    (hmissing : ∀ j ∈ erased, ∀ g, indices[j]? = some g →
      (r.slices i).retransmitMap.getLsbD g = false) (hq : P q)
    (hleft : ∀ j ∈ erased, ∀ g, indices[j]? = some g →
      (q.slices i).retransmitMap.getLsbD g = false)
    (h : erased.foldlM (fun r ej => do storeBlock r i (← indices[ej]?) (← data[ej]?)) q = some r') :
    P r' := by
  induction erased generalizing q with
  | nil =>
    obtain rfl := Option.some.inj h
    exact hq
  | cons ej erased ih =>
    obtain ⟨hnot, hnodup⟩ := List.nodup_cons.mp herased
    rw [List.foldlM_cons] at h
    obtain ⟨q₁, hq₁, h⟩ := Option.bind_eq_some_iff.mp h
    obtain ⟨g, hg, hq₁⟩ := Option.bind_eq_some_iff.mp hq₁
    obtain ⟨row, hrow, hq₁⟩ := Option.bind_eq_some_iff.mp hq₁
    have hstored := hP.store hr hq (hmissing ej List.mem_cons_self g hg)
      (hleft ej List.mem_cons_self g hg) (hdata row (List.mem_of_getElem? hrow)) hq₁
    obtain ⟨hlt, hslot, -, -⟩ := storeBlock_some hq₁
    refine ih hnodup (fun j hj => hmissing j (List.mem_cons_of_mem ej hj)) hstored (fun j hj g' hg' => ?_) h
    have hne : g' ≠ g := fun heq => by
      rw [heq] at hg'
      obtain ⟨hjlt, -⟩ := List.getElem?_eq_some_iff.mp hg'
      exact hnot ((List.getElem?_inj hjlt hindices).mp (hg'.trans hg.symm) ▸ hj)
    rw [hslot, Bitmap.getLsbD_insert hlt, hleft j (List.mem_cons_of_mem ej hj) g' hg',
      decide_eq_false hne]
    rfl

theorem recoverStripe_invariant {blocks stripe : ℕ} (hP : StoreInvariant i P) (hr : P r)
    (h : recoverStripe i blocks r stripe = some r') : P r' := by
  simp only [recoverStripe, Option.bind_eq_bind, Option.bind_eq_some_iff] at h
  obtain ⟨erased, herased, h⟩ := h
  split at h
  · obtain rfl := Option.some.inj h
    exact hr
  split at h
  · obtain rfl := Option.some.inj h
    exact hr
  obtain ⟨data, hdata, h⟩ := Option.bind_eq_some_iff.mp h
  obtain ⟨⟨ok, data'⟩, hdecode, h⟩ := Option.bind_eq_some_iff.mp h
  have hsizes := Fec.fecDecode_sizes (stripeBlocks_sizes hdata) hdecode
  dsimp only at h
  split at h
  · have hmissing := fun j hj g hg => erasedBlocks_missing (j := j) (g := g) herased hj hg
    have hindices : (stripeIndices blocks (r.slices i).fecStripes stripe).Nodup := by
      rcases Nat.eq_zero_or_pos (r.slices i).fecStripes with hzero | hpos
      · rw [hzero, stripeIndices, Nat.div_zero]
        exact List.nodup_nil
      · exact nodup_stripeIndices hpos
    have hnodup : erased.Nodup := by
      rw [erasedBlocks_eq (lt_of_erasedBlocks herased)] at herased
      rw [← Option.some.inj herased]
      exact nodup_erasedIn _ _
    exact storeErased_invariant hP hindices hnodup hsizes hr hmissing hr hmissing h
  · obtain rfl := Option.some.inj h
    exact hr

theorem tryFecRecover_invariant (hP : StoreInvariant i P) (hr : P r)
    (h : tryFecRecover r i = some r') : P r' := by
  simp only [tryFecRecover, Option.bind_eq_bind, Option.bind_eq_some_iff] at h
  obtain ⟨blocks, -, h⟩ := h
  split at h
  · obtain rfl := Option.some.inj h
    exact hr
  · obtain ⟨r₁, hr₁, h⟩ := Option.bind_eq_some_iff.mp h
    have hkept : P r₁ :=
      Fold.foldlM_invariant (fun _ _ _ _ hq hstep => recoverStripe_invariant hP hq hstep) hr hr₁
    split at h
    · obtain rfl := Option.some.inj h
      exact hP.phase _ hkept
    · obtain rfl := Option.some.inj h
      exact hkept

theorem checkSliceComplete_invariant (hP : StoreInvariant i P) (hr : P r)
    (h : checkSliceComplete r i = some r') : P r' := by
  simp only [checkSliceComplete] at h
  split at h
  · obtain rfl := Option.some.inj h
    exact hr
  · obtain ⟨blocks, -, h⟩ := Option.bind_eq_some_iff.mp h
    split at h
    · obtain rfl := Option.some.inj h
      exact hP.phase _ hr
    · split at h
      · exact tryFecRecover_invariant hP hr h
      · obtain rfl := Option.some.inj h
        exact hr

end Invariant

theorem storeInvariant_keeps (hring : r.fifo.dataBufSize = r.blockSize * 4096) :
    StoreInvariant i (KeepsBlock i k r) where
  store h₀ hq hmissing _ hrow hs := by
    refine hq.trans (storeBlock_keeps (by rw [hq.ringSize, hq.blockSize, hring]) hq.there
      (fun heq => ?_) (by rw [hrow, h₀.blockSize, hq.blockSize]) hs)
    rw [heq, h₀.there] at hmissing
    cases hmissing
  phase p hq := hq.phase p

theorem checkSliceComplete_keeps (hring : r.fifo.dataBufSize = r.blockSize * 4096)
    (hthere : (r.slices i).retransmitMap.getLsbD k = true) (h : checkSliceComplete r i = some r') :
    KeepsBlock i k r r' :=
  checkSliceComplete_invariant (storeInvariant_keeps hring) (KeepsBlock.refl hthere) h

end Recovery

/-! ### The block of the datagram -/

section Handler

variable {i : Fin 8} {r r' : Receiver} {msg : DataBlock} {payload : List UInt8}

/-- The block is counted, and what has arrived of it is in the ring. -/
theorem receiveBlock_stores (hring : r.fifo.dataBufSize = r.blockSize * 4096)
    (hbefore : ¬ HasBlock r i msg.sliceNo msg.blockNo) (hafter : HasBlock r' i msg.sliceNo msg.blockNo)
    (h : receiveBlock r i msg payload = some r') :
    r'.blockSize = r.blockSize ∧ r'.blockBytes i msg.blockNo (payload.take r.blockSize).length
      = payload.take r.blockSize := by
  simp only [receiveBlock] at h
  split at h
  · obtain rfl := Option.some.inj h
    exact absurd hafter hbefore
  split at h
  · obtain rfl := Option.some.inj h
    exact absurd hafter hbefore
  split at h
  · obtain rfl := Option.some.inj h
    exact absurd hafter hbefore
  obtain ⟨r₂, hstore, hcheck⟩ := Option.bind_eq_some_iff.mp h
  generalize hr₁ : (if msg.bytes ≠ 0 then r.learnBytes i msg.bytes else r) = r₁ at hstore
  have hsame : r₁.blockSize = r.blockSize ∧ r₁.fifo = r.fifo := by
    rw [← hr₁]
    split
    · exact ⟨rfl, rfl⟩
    · exact ⟨rfl, rfl⟩
  rw [hsame.1] at hstore
  obtain ⟨hk, hslot, hfifo, hblock⟩ := storeBlock_some hstore
  have hsize : r₂.fifo.dataBufSize = r₂.blockSize * 4096 := by
    rw [hfifo, hsame.2, hblock, hsame.1, hring]
  have hthere : (r₂.slices i).retransmitMap.getLsbD msg.blockNo = true := by
    rw [hslot, Bitmap.getLsbD_insert hk, decide_eq_true rfl, Bool.or_true]
  have hkeeps := checkSliceComplete_keeps hsize hthere hcheck
  have hrow : (payload.take r.blockSize).length ≤ r.blockSize := List.length_take_le ..
  refine ⟨by rw [hkeeps.blockSize, hblock, hsame.1], ?_⟩
  rw [hkeeps.bytes _ (by rw [hblock, hsame.1]; exact hrow), blockBytes, hfifo, hslot, hblock]
  exact Ring.window_write_self (by rw [hsame.2, hring]; omega) _

theorem newSlice_frame {s : ℤ} {j : Fin 8} {r₁ : Receiver} (h : newSlice r s = some (some (j, r₁))) :
    r₁.blockSize = r.blockSize ∧ r₁.fifo = r.fifo ∧ (r₁.slices j).retransmitMap = 0 ∧
      ∀ i, i ≠ j → r₁.slices i = r.slices i := by
  rw [newSlice] at h
  cases hfree : freeSlot r with
  | none =>
    rw [hfree] at h
    cases h
  | some l =>
    rw [hfree] at h
    obtain ⟨n, -, hres⟩ := Option.map_eq_some_iff.mp h
    obtain ⟨rfl, rfl⟩ := Prod.mk.inj (Option.some.inj hres)
    exact ⟨rfl, rfl, by rw [claim_slices_self]; rfl, fun i hi => claim_slices_of_ne r l s hi⟩

theorem hasBlock_congr {k : ℕ} {s : ℤ} (h : r'.slices i = r.slices i) :
    HasBlock r' i s k ↔ HasBlock r i s k := by
  rw [HasBlock, HasBlock, h]

/-- A call that counts a block has stored what arrived of it. -/
theorem processDataBlock_stores (hring : r.fifo.dataBufSize = r.blockSize * 4096)
    (hbefore : ¬ HasBlock r i msg.sliceNo msg.blockNo) (hafter : HasBlock r' i msg.sliceNo msg.blockNo)
    (h : processDataBlock r msg payload = some r') :
    r'.blockSize = r.blockSize ∧ r'.blockBytes i msg.blockNo (payload.take r.blockSize).length
      = payload.take r.blockSize := by
  have hother : ∀ {q : Receiver} {j : Fin 8}, i ≠ j → q.slices i = r.slices i →
      receiveBlock q j msg payload ≠ some r' := by
    intro q j hij hq hcall
    have hsame := (receiveBlock_filled hcall).1.others i hij
    exact hbefore ((hasBlock_congr (hsame.trans hq)).mp hafter)
  rw [processDataBlock] at h
  split at h
  · rename_i j _
    by_cases hij : i = j
    · subst hij
      exact receiveBlock_stores hring hbefore hafter h
    · exact absurd h (hother hij rfl)
  · obtain ⟨res, hnew, h⟩ := Option.bind_eq_some_iff.mp h
    split at h
    · obtain rfl := Option.some.inj h
      exact absurd hafter hbefore
    · rename_i j r₁
      obtain ⟨hblock, hfifo, hmap, hrest⟩ := newSlice_frame hnew
      by_cases hij : i = j
      · subst hij
        have hclaimed : ¬ HasBlock { r₁ with currentSlice := some i } i msg.sliceNo msg.blockNo := by
          rintro ⟨-, -, hset⟩
          rw [show (({ r₁ with currentSlice := some i } : Receiver).slices i).retransmitMap = 0 from hmap,
            Bitmap.getLsbD_zero] at hset
          cases hset
        have hstores := receiveBlock_stores (r := { r₁ with currentSlice := some i })
          (by rw [hfifo, hblock]; exact hring) hclaimed hafter h
        exact hblock ▸ hstores
      · exact absurd h (hother hij (hrest i hij))

end Handler

/-! ### The packets of a slice -/

/-- The packet of block `k` of a slice with the bytes `c` (senddata.rs:943-961). -/
def blockPacket (blockSize : ℕ) (s : ℤ) (c : List UInt8) (k : ℕ) : List UInt8 :=
  DataBlock.pack ⟨s, SendData.asU16 k, SendData.asI32 c.length⟩ ++ blockOf blockSize c k

/-- What the receiver has of a packet of which `n` bytes arrive: its buffer ends after 4096. -/
def arrived (n : ℕ) (packet : List UInt8) : List UInt8 := (packet.take n).take Peer.receiver.bufSize

section Packet

variable {bs k n : ℕ} {s : ℤ} {c : List UInt8}

theorem asU16_lt (k : ℕ) : SendData.asU16 k < 2 ^ 16 := by
  rw [SendData.asU16]
  exact Nat.mod_lt _ (by norm_num)

theorem arrived_eq (packet : List UInt8) : arrived n packet = packet.take (min n 4096) := by
  rw [arrived, List.take_take, Nat.min_comm]
  rfl

theorem readDatagram_blockPacket (hs : IsI32 s) (rest : List UInt8) :
    readDatagram (arrived n (blockPacket bs s c k) ++ rest) (arrived n (blockPacket bs s c k)).length
      = if min n 4096 < 16 then .skipped
        else .data ⟨s, SendData.asU16 k, SendData.asI32 c.length⟩
          ((blockOf bs c k).take (min n 4096 - 16)) := by
  have htyped : (Message.data ⟨s, SendData.asU16 k, SendData.asI32 c.length⟩).Typed :=
    typed_data hs (asU16_lt k) (isI32_asI32 c.length)
  have hlen : (DataBlock.pack ⟨s, SendData.asU16 k, SendData.asI32 c.length⟩).length = 16 :=
    Message.length_pack htyped
  rw [arrived_eq, List.length_take, blockPacket, List.length_append, hlen]
  generalize min n 4096 = m
  split
  · rename_i hshort
    rw [readDatagram]
    split
    · rfl
    · have hop : opcodeOf ((DataBlock.pack ⟨s, SendData.asU16 k, SendData.asI32 c.length⟩
          ++ blockOf bs c k).take m ++ rest) = cmdData := by
        rw [opcodeOf, Bytes.field_take_append (by omega) (by rw [List.length_append]; omega)]
        exact opcodeOf_pack (.data ⟨s, SendData.asU16 k, SendData.asI32 c.length⟩) _
      rw [hop, if_pos rfl, if_pos (by omega)]
  · rename_i hlong
    rw [List.take_append, List.take_of_length_le (by omega), List.append_assoc, hlen,
      readDatagram_data htyped (by omega), List.take_left' (by rw [List.length_take]; omega)]

theorem blockOf_set_of_lt {j : ℕ} (v : UInt8) (h : j < k * bs) :
    blockOf bs (c.set j v) k = blockOf bs c k := by
  rw [blockOf, blockOf, List.drop_set_of_lt h]

theorem blockOf_set {j : ℕ} (v : UInt8) (h : k * bs ≤ j) :
    blockOf bs (c.set j v) k = (blockOf bs c k).set (j - k * bs) v := by
  rw [blockOf, blockOf, List.drop_set, if_neg (by omega), List.take_set]

theorem arrived_set {j : ℕ} (v : UInt8) (h : j < k * bs ∨ k * bs + (min n 4096 - 16) ≤ j) :
    arrived n (blockPacket bs s (c.set j v) k) = arrived n (blockPacket bs s c k) := by
  have hlen (m : DataBlock) : m.pack.length = 16 := by
    simp [DataBlock.pack]
  rcases h with h | h
  · rw [blockPacket, blockPacket, List.length_set, blockOf_set_of_lt v h]
  · rw [arrived_eq, arrived_eq, blockPacket, blockPacket, List.length_set, List.take_append,
      List.take_append, hlen, blockOf_set v (by omega), List.take_set_of_le (by omega)]

theorem blockOf_set_ne {j : ℕ} (hlo : k * bs ≤ j) (hhi : j < k * bs + bs) (hj : j < c.length) :
    blockOf bs (c.set j (c.getD j 0 + 1)) k ≠ blockOf bs c k := by
  intro h
  rw [blockOf_set _ hlo] at h
  have hlt : j - k * bs < (blockOf bs c k).length := by
    rw [length_blockOf]
    omega
  have hself : (blockOf bs c k)[j - k * bs]? = some (c.getD j 0) := by
    rw [blockOf, List.getElem?_take_of_lt (by omega), List.getElem?_drop,
      show k * bs + (j - k * bs) = j by omega, List.getElem?_eq_getElem hj,
      List.getD_eq_getElem _ _ hj]
  have hget := congrArg (fun l => l[j - k * bs]?) h
  simp only [List.getElem?_set_self hlt, hself, Option.some_inj] at hget
  exact absurd (add_eq_left.mp hget) (by decide)

end Packet

/-- In every state, a call that counts a block from a DATA packet leaves the whole block in the ring,
whatever the slice is that the packet was cut from, if, and only if, the number of the block fits
its field and the whole packet has arrived in the buffer. -/
theorem process_data_block_stores (r r' : Receiver) (i : Fin 8) (s : ℤ) (c rest : List UInt8)
    (k n : ℕ) (hring : r.fifo.dataBufSize = r.blockSize * 4096) (hpos : 0 < r.blockSize) (hs : IsI32 s)
    (hk : k * r.blockSize < c.length)
    (hcall : dispatch r (readDatagram (arrived n (blockPacket r.blockSize s c k) ++ rest)
      (arrived n (blockPacket r.blockSize s c k)).length) = some r')
    (hbefore : ¬ HasBlock r i s (SendData.asU16 k)) (hafter : HasBlock r' i s (SendData.asU16 k)) :
    (∀ c', c'.length = c.length → arrived n (blockPacket r.blockSize s c' k)
          = arrived n (blockPacket r.blockSize s c k) →
        r'.blockBytes i (SendData.asU16 k) (blockOf r.blockSize c' (SendData.asU16 k)).length
          = blockOf r.blockSize c' (SendData.asU16 k)) ↔
      k < 2 ^ 16 ∧ min r.blockSize (c.length - k * r.blockSize) + 16 ≤ min n 4096 := by
  have hlen := length_blockOf r.blockSize c k
  have hstored : r'.blockBytes i (SendData.asU16 k)
        ((blockOf r.blockSize c k).take (min n 4096 - 16)).length
      = (blockOf r.blockSize c k).take (min n 4096 - 16) := by
    rw [readDatagram_blockPacket hs] at hcall
    split at hcall
    · obtain rfl := Option.some.inj hcall
      exact absurd hafter hbefore
    · have htake : ((blockOf r.blockSize c k).take (min n 4096 - 16)).take r.blockSize
          = (blockOf r.blockSize c k).take (min n 4096 - 16) :=
        List.take_of_length_le (by rw [List.length_take]; omega)
      rw [← htake]
      exact (@processDataBlock_stores i { r with phase := .scanning } r'
        ⟨s, SendData.asU16 k, SendData.asI32 c.length⟩ _ hring hbefore hafter hcall).2
  constructor
  · intro hall
    by_contra hnot
    -- a byte of the counted block that is not in the datagram
    obtain ⟨j, hlo, hhi, hj, hout⟩ : ∃ j, SendData.asU16 k * r.blockSize ≤ j ∧
        j < SendData.asU16 k * r.blockSize + r.blockSize ∧ j < c.length ∧
        (j < k * r.blockSize ∨ k * r.blockSize + (min n 4096 - 16) ≤ j) := by
      by_cases hfits : k < 2 ^ 16
      · rw [SendData.asU16, Nat.mod_eq_of_lt hfits]
        exact ⟨k * r.blockSize + (min n 4096 - 16), by omega, by omega, by omega, Or.inr le_rfl⟩
      · have hlt : SendData.asU16 k + 1 ≤ k := (asU16_lt k).trans_le (Nat.le_of_not_lt hfits)
        have hle := Nat.mul_le_mul_right r.blockSize hlt
        rw [Nat.add_mul, Nat.one_mul] at hle
        exact ⟨SendData.asU16 k * r.blockSize, le_rfl, by omega, by omega, Or.inl (by omega)⟩
    have hsame := hall c rfl rfl
    have hother := hall (c.set j (c.getD j 0 + 1)) (List.length_set ..) (arrived_set _ hout)
    rw [length_blockOf, List.length_set, ← length_blockOf, hsame] at hother
    exact blockOf_set_ne hlo hhi hj hother.symm
  · rintro ⟨hfits, hwhole⟩ c' hc' harrived
    have hno : SendData.asU16 k = k := Nat.mod_eq_of_lt hfits
    have hpacket : blockOf r.blockSize c' k = blockOf r.blockSize c k := by
      have hlen' := length_blockOf r.blockSize c' k
      rw [hc'] at hlen'
      have hheader (m : DataBlock) : m.pack.length = 16 := by
        simp [DataBlock.pack]
      rw [arrived_eq, arrived_eq, List.take_of_length_le, List.take_of_length_le, blockPacket,
        blockPacket, hc'] at harrived
      · exact List.append_cancel_left harrived
      · rw [blockPacket, List.length_append, hheader]
        omega
      · rw [blockPacket, List.length_append, hheader]
        omega
    rw [hno, List.take_of_length_le (by omega)] at hstored
    rw [hno, hpacket]
    exact hstored

/-- The receiver of a transfer before its first datagram. -/
def atStart (blockSize : ℕ) : Receiver := Receiver.start blockSize 0 [] (Fifo.fresh blockSize)

/-- A block of four bytes that arrives whole. -/
theorem process_data_block_stores_fourBytes : ∃ r',
    dispatch (atStart 4) (readDatagram (arrived 20 (blockPacket 4 0 [1, 2, 3, 4] 0) ++ [])
      (arrived 20 (blockPacket 4 0 [1, 2, 3, 4] 0)).length) = some r' ∧
    r'.blockBytes 0 0 4 = [1, 2, 3, 4] := by
  have hexec : (dispatch (atStart 4) (readDatagram (arrived 20 (blockPacket 4 0 [1, 2, 3, 4] 0) ++ [])
      (arrived 20 (blockPacket 4 0 [1, 2, 3, 4] 0)).length)).map
      (fun r' => decide (HasBlock r' 0 0 0)) = some true := by decide +kernel
  obtain ⟨r', hcall, hafter⟩ := Option.map_eq_some_iff.mp hexec
  have hall := (process_data_block_stores (atStart 4) r' 0 0 [1, 2, 3, 4] [] 0 20 rfl (by decide)
    (by decide) (by decide) hcall (by decide) (of_decide_eq_true hafter)).mpr (by decide)
  exact ⟨r', hcall, hall [1, 2, 3, 4] rfl rfl⟩

/-- With blocks of 4084 bytes the last four bytes of a block do not fit into the buffer; the block
is counted. -/
theorem process_data_block_incomplete : ∃ config r',
    SendData.runSender { SendData.defaultCli with blockSize := 4084 } = some config ∧
    config.blockSize = 4084 ∧
    dispatch (atStart 4084) (readDatagram (arrived 4100 (blockPacket 4084 0 (List.replicate 4084 1) 0))
      4096) = some r' ∧
    HasBlock r' 0 0 0 ∧ (r'.slices 0).dataBlocksTransferred = 1 ∧
    r'.blockBytes 0 0 4084 ≠ List.replicate 4084 1 := by
  have hexec : (dispatch (atStart 4084) (readDatagram
      (arrived 4100 (blockPacket 4084 0 (List.replicate 4084 1) 0)) 4096)).map
      (fun r' => decide (HasBlock r' 0 0 0 ∧ (r'.slices 0).dataBlocksTransferred = 1 ∧
        r'.fifo.dataBufSize = 4084 * 4096 ∧ (r'.slices 0).base = 0 ∧ r'.fifo.buffer 4080 = 0))
      = some true := by decide +kernel
  obtain ⟨r', hcall, hp⟩ := Option.map_eq_some_iff.mp hexec
  obtain ⟨hafter, hcount, hsize, hbase, hstale⟩ := of_decide_eq_true hp
  refine ⟨_, r', rfl, rfl, hcall, hafter, hcount, fun h => ?_⟩
  have hmod : (0 + 0 * r'.blockSize + 4080) % (4084 * 4096) = 4080 := by
    rw [Nat.zero_mul]
  have hlast : (r'.blockBytes 0 0 4084)[4080]? = some 0 := by
    rw [blockBytes, hsize, hbase, Ring.window, List.getElem?_map, List.getElem?_range (by decide),
      Option.map_some, hmod, hstale]
  rw [h, List.getElem?_replicate_of_lt (by decide)] at hlast
  exact absurd (Option.some.inj hlast) (by decide)

end Udpcast.ReceiveData
