import Udpcast.ReceiveData.Holding
import Udpcast.ReceiveData.Stored

/-!
# The room of a slice

`new_slice` waits for free memory for 1024 blocks, and takes none of it.  The memory is still there
when the slice completes if one slice at a time is in state Receiving, whatever the datagrams are:
the counter of the blocks is the number of bits in the map, so that a slice that completes has at
most 1024 blocks.
-/

namespace Udpcast.ReceiveData

open Receiver

/-- At most one slice is in state Receiving. -/
def OneReceiving (r : Receiver) : Prop :=
  ∀ i j, (r.slices i).state = .receiving → (r.slices j).state = .receiving → i = j

instance (r : Receiver) : Decidable (OneReceiving r) := inferInstanceAs (Decidable (∀ _ _, _))

/-- After the action at most one slice is in state Receiving. -/
def OneAtATime (r : Receiver) (a : Action) : Prop :=
  ((step r a).all fun r' => decide (OneReceiving r')) = true

instance (r : Receiver) (a : Action) : Decidable (OneAtATime r a) :=
  inferInstanceAs (Decidable (_ = true))

section Room

variable {r r₁ r' : Receiver} {a : Action} {i : Fin 8} {blockSize : ℕ}

theorem OneAtATime.oneReceiving (h : OneAtATime r a) (hs : step r a = some r') : OneReceiving r' := by
  rw [OneAtATime, hs] at h
  exact of_decide_eq_true h

theorem OneReceiving.of_states (h : OneReceiving r)
    (hs : ∀ j, (r.slices j).state = (r'.slices j).state) : OneReceiving r' := by
  intro j k hj hk
  rw [← hs] at hj hk
  exact h j k hj hk

/-! ### The counter of the blocks -/

/-- `data_blocks_transferred` is the number of blocks in the map. -/
def Slice.Counted (s : Slice) : Prop :=
  s.dataBlocksTransferred = (Bitmap.bits s.retransmitMap).card

theorem Slice.Counted.le {s : Slice} (h : s.Counted) : s.dataBlocksTransferred ≤ maxSliceSize := by
  have hcard := Finset.card_filter_le (Finset.range 1024) fun k => s.retransmitMap.getLsbD k
  rw [Finset.card_range] at hcard
  rw [h]
  exact hcard

theorem storeBlock_counted {g : ℕ} {row : List UInt8} (h : (r.slices i).Counted)
    (hmissing : (r.slices i).retransmitMap.getLsbD g = false)
    (hs : storeBlock r i g row = some r') : (r'.slices i).Counted := by
  obtain ⟨hg, hslot, -, -⟩ := storeBlock_some hs
  have hnot : g ∉ Bitmap.bits (r.slices i).retransmitMap := by
    rw [Bitmap.mem_bits, hmissing]
    exact Bool.false_ne_true
  rw [hslot, Slice.Counted]
  dsimp only
  rw [Bitmap.bits_insert hg, Finset.card_insert_of_notMem hnot, h]

theorem storeInvariant_counted : StoreInvariant i fun r => (r.slices i).Counted where
  store _ hq _ hmissing _ hs := storeBlock_counted hq hmissing hs
  phase _ hq := hq

theorem receiveBlock_counted {msg : DataBlock} {payload : List UInt8} (h : (r.slices i).Counted)
    (hf : receiveBlock r i msg payload = some r') : (r'.slices i).Counted := by
  simp only [receiveBlock] at hf
  split at hf
  · obtain rfl := Option.some.inj hf
    exact h
  split at hf
  · obtain rfl := Option.some.inj hf
    exact h
  split at hf
  · obtain rfl := Option.some.inj hf
    exact h
  rename_i hset
  obtain ⟨r₂, hstore, hcheck⟩ := Option.bind_eq_some_iff.mp hf
  generalize hr₁ : (if msg.bytes ≠ 0 then r.learnBytes i msg.bytes else r) = r₁ at hstore
  have hlearn : (r₁.slices i).Counted ∧
      (r₁.slices i).retransmitMap = (r.slices i).retransmitMap := by
    rw [← hr₁]
    split
    · rw [learnBytes_slices_self]
      exact ⟨h, rfl⟩
    · exact ⟨h, rfl⟩
  have hmissing : (r₁.slices i).retransmitMap.getLsbD msg.blockNo = false := by
    rw [hlearn.2]
    exact Bool.eq_false_of_not_eq_true hset
  have hstored := storeBlock_counted hlearn.1 hmissing hstore
  exact checkSliceComplete_invariant (P := fun r => (r.slices i).Counted) storeInvariant_counted
    hstored hcheck

theorem receiveFec_counted {msg : FecBlock} {payload : List UInt8} (h : (r.slices i).Counted)
    (hf : receiveFec r i msg payload = some r') : (r'.slices i).Counted := by
  simp only [receiveFec] at hf
  split at hf
  · obtain rfl := Option.some.inj hf
    exact h
  refine checkSliceComplete_invariant (P := fun r => (r.slices i).Counted) storeInvariant_counted
    ?_ hf
  rw [modify_slices_self]
  split
  · rw [learnBytes_slices_self]
    exact h
  · exact h

theorem fill_counted {d : Datagram} (h : (r.slices i).Counted) (hf : fill r i d = some r') :
    (r'.slices i).Counted := by
  cases d with
  | data msg payload => exact receiveBlock_counted h hf
  | fec msg payload => exact receiveFec_counted h hf
  | reqack msg =>
    obtain ⟨⟨_, _, rfl⟩, -⟩ := answerReqack_frame hf
    dsimp only
    rw [learnBytes_slices_self]
    exact h
  | skipped => cases hf
  | unexpected => cases hf

/-- A slice that completes has at most 1024 blocks. -/
theorem Complete.bytes_le {b : ℕ} (h : Complete b i r) (hcounted : (r.slices i).Counted) :
    (r.slices i).bytes ≤ maxSliceSize * r.blockSize := by
  obtain ⟨-, n, hn, hle⟩ := h
  have hcount := hcounted.le
  rw [blocksInSlice] at hn
  split at hn
  · rename_i hok
    have hlt := Nat.lt_div_mul_add (a := (r.slices i).bytes + r.blockSize - 1)
      (Nat.pos_of_ne_zero hok.2.2)
    rw [Option.some.inj hn] at hlt
    have hmul : n * r.blockSize ≤ maxSliceSize * r.blockSize :=
      Nat.mul_le_mul_right _ (hle.trans hcount)
    omega
  · cases hn

/-! ### The invariant -/

structure Room (blockSize : ℕ) (r : Receiver) : Prop where
  size_eq : r.blockSize = blockSize
  one : OneReceiving r
  used : CompletingUsed r
  counted : ∀ i, (r.slices i).Counted
  fits : ∀ i, r.phase = .completing i → (r.slices i).state = .receiving →
    (r.slices i).bytes ≤ maxSliceSize * blockSize
  /-- What `new_slice` has waited for is free. -/
  queues : ∃ C D F, Queues r C D F ∧
    ∀ i, (r.slices i).state = .receiving → C + maxSliceSize * blockSize ≤ F

theorem Room.congr (h : Room blockSize r) (hb : r'.blockSize = r.blockSize) (hs : r'.slices = r.slices)
    (hf : r'.fifo = r.fifo) (hw : r'.writer = r.writer)
    (hp : ∀ i, r'.phase = .completing i → r.phase = .completing i) : Room blockSize r' := by
  obtain ⟨C, D, F, hq, hroom⟩ := h.queues
  refine ⟨hb.trans h.size_eq, h.one.of_states fun j => by rw [hs], fun i hi => ?_, fun i => ?_,
    fun i hi => ?_, C, D, F, hq.congr hb (by rw [hf]) (by rw [hf]) (by rw [hf]) hw, ?_⟩
  · rw [hs]
    exact h.used i (hp i hi)
  · rw [hs]
    exact h.counted i
  · rw [hs]
    exact h.fits i (hp i hi)
  · rw [hs]
    exact hroom

theorem Room.opened {c : Option (Fin 8)} {s : ℤ} (h : Room blockSize r) (hopen : Opened r c s i r₁)
    (hone : OneReceiving r₁) (hphase : ∀ j, r.phase ≠ .completing j) : Room blockSize r₁ := by
  obtain ⟨hother, -, hb, hf, hw, -⟩ := hopen.frame
  have hphase₁ := hopen.not_completing hphase
  rcases hopen.slot with ⟨rfl, -, -⟩ | ⟨-, -, -, hself, hready⟩
  · exact h
  obtain ⟨C, D, F, hq, -⟩ := h.queues
  have hroom := hq.waited hready
  rw [Nat.mul_comm, h.size_eq] at hroom
  refine ⟨hb.trans h.size_eq, hone, fun j hj => absurd hj (hphase₁ j), fun j => ?_,
    fun j hj => absurd hj (hphase₁ j), C, D, F,
    hq.congr hb (by rw [hf]) (by rw [hf]) (by rw [hf]) hw, fun _ _ => hroom⟩
  by_cases hji : j = i
  · rw [hji, hself, Slice.Counted]
    exact (congrArg Finset.card Bitmap.bits_zero).symm
  · rw [hother j hji]
    exact h.counted j

theorem Room.filled {b : ℕ} (h : Room blockSize r) (hfill : Filled b i r r')
    (hfree : (r.slices i).state ≠ .free) (hphase : ∀ j, r.phase ≠ .completing j)
    (hcounted : (r'.slices i).Counted) : Room blockSize r' := by
  obtain ⟨C, D, F, hq, hroom⟩ := h.queues
  obtain ⟨buffer, hfifo⟩ := hfill.fifo
  obtain ⟨_, _, _, _, hrest⟩ := hfill.rest
  have hw : r'.writer = r.writer := by rw [hrest]
  have hcompleting : ∀ j, r'.phase = .completing j → j = i := fun j hj => by
    rcases hfill.phase with hp | hp
    · rw [hp] at hj
      exact absurd hj (hphase j)
    · rw [hp] at hj
      exact (Phase.completing.inj hj).symm
  have hb := hfill.blockSize.trans h.size_eq
  refine ⟨hb, h.one.of_states fun j => (hfill.slot_state j).symm, fun j hj => ?_, fun j => ?_,
    fun j hj _ => ?_, C, D, F,
    hq.congr hfill.blockSize (by rw [hfifo]) (by rw [hfifo]) (by rw [hfifo]) hw, fun j hj => ?_⟩
  · rw [hcompleting j hj, hfill.state]
    exact hfree
  · by_cases hji : j = i
    · rw [hji]
      exact hcounted
    · rw [hfill.others j hji]
      exact h.counted j
  · obtain rfl := hcompleting j hj
    rw [← hb]
    exact (hfill.complete hj (hphase j)).bytes_le hcounted
  · rw [hfill.slot_state] at hj
    exact hroom j hj

/-- The slice that completes is the only one that is received, and has been waited for. -/
theorem Room.finished (h : Room blockSize r) (hphase : r.phase = .completing i) (hfin : Finished r i r') :
    Room blockSize { r' with phase := .scanning } := by
  obtain ⟨C, D, F, hq, hroom⟩ := h.queues
  obtain ⟨hother, hself, hb, -, -⟩ := hfin.frame
  have hdone : ∀ j, (r'.slices j).state = .receiving → j ≠ i ∧ (r.slices j).state = .receiving := by
    intro j hj
    have hji : j ≠ i := fun hji => by
      rw [hji, hself] at hj
      cases hj
    rw [hother j hji] at hj
    exact ⟨hji, hj⟩
  have hone : OneReceiving { r' with phase := .scanning } := fun j k hj hk =>
    h.one j k (hdone j hj).2 (hdone k hk).2
  have hcounted : ∀ j, (r'.slices j).Counted := fun j => by
    by_cases hji : j = i
    · rw [hji, hself]
      exact h.counted i
    · rw [hother j hji]
      exact h.counted j
  have hroom' : ∀ j, (r'.slices j).state = .receiving → C + maxSliceSize * blockSize ≤ F :=
    fun j hj => hroom j (hdone j hj).2
  refine ⟨hb.trans h.size_eq, hone, nofun, hcounted, nofun, ?_⟩
  cases hfin with
  | already _ => exact ⟨C, D, F, hq.congr rfl rfl rfl rfl rfl, hroom'⟩
  | data q₁ q₂ hnot _ _ hq₁ hq₂ =>
    have hstate : (r.slices i).state = .receiving := by
      cases hs : (r.slices i).state with
      | free => exact absurd hs (h.used i hphase)
      | receiving => rfl
      | done => exact absurd hs hnot
    have hfits := h.fits i hphase hstate
    have hfree := hroom i hstate
    refine ⟨_, D, F, hq.complete (by omega) hq₁ hq₂ ⟨r.fifo.buffer, rfl⟩ rfl rfl, fun j hj => ?_⟩
    obtain ⟨hji, hj⟩ := hdone j hj
    exact absurd (h.one j i hj hstate) hji
  | atEnd _ _ _ _ => exact ⟨C, D, F, hq.produceEnd rfl rfl rfl, hroom'⟩
  | incomplete _ _ _ _ => exact ⟨C, D, F, hq.congr rfl rfl rfl rfl rfl, hroom'⟩

theorem Room.rearmed (h : Room blockSize r) (now : ℕ) : Room blockSize (armed r now) := by
  obtain ⟨_, harmed⟩ := armed_frame r now
  rw [harmed]
  exact h.congr rfl rfl rfl rfl nofun

theorem Room.step (h : Room blockSize r) (hone : OneReceiving r') (hs : StepTo r a r') : Room blockSize r' := by
  cases hs with
  | seeded _ => exact h.congr rfl rfl rfl rfl fun _ hp => by cases hp
  | seedNoSlot _ _ => exact h.congr rfl rfl rfl rfl fun _ hp => by cases hp
  | @seed s b x rest i r₁ hphase hopen =>
    have hfill := Filled.learnBytes i r₁ b
    have hp : ∀ j, r.phase ≠ .completing j := fun j => by
      rw [hphase]
      exact fun hp => by cases hp
    have h₁ := h.opened hopen (hone.of_states fun j => hfill.slot_state j) hp
    refine (h₁.filled hfill hopen.not_free (hopen.not_completing hp) ?_).congr rfl rfl rfl rfl fun _ hp => by cases hp
    rw [learnBytes_slices_self]
    exact h₁.counted i
  | expire _ _ _ => exact h.congr rfl rfl rfl rfl fun _ hp => by cases hp
  | skipped _ => exact (h.rearmed _).congr rfl rfl rfl rfl fun _ hp => by cases hp
  | ignored _ _ _ => exact h.rearmed _
  | answered _ _ _ => exact (h.rearmed _).congr rfl rfl rfl rfl fun _ => id
  | @handled top now d s b i r₁ r' _ _ hopen hf hfill _ _ _ =>
    have hp : ∀ j, (armed r now).phase ≠ .completing j := fun j => by
      rw [armed_phase]
      exact fun hp => by cases hp
    have h₁ := (h.rearmed now).opened hopen (hone.of_states fun j => hfill.slot_state j) hp
    exact h₁.filled hfill hopen.not_free (hopen.not_completing hp) (fill_counted (h₁.counted i) hf)
  | complete hphase hfin => exact h.finished hphase hfin
  | scan _ =>
    rw [scanEnd]
    split
    · exact h.congr rfl rfl rfl rfl fun _ hp => by cases hp
    · split
      · exact h.congr rfl rfl rfl rfl fun _ hp => by cases hp
      · exact h.congr rfl rfl rfl rfl fun _ hp => by cases hp
  | write hwait hw =>
    obtain ⟨C, D, F, hq, hroom⟩ := h.queues
    have hq' := hq.write hwait hw
    obtain ⟨_, _, rfl⟩ := writeBlock_frame hw
    exact ⟨h.size_eq, h.one, h.used, h.counted, h.fits, C, D, F, hq', hroom⟩
  | writeConsumed hw hq =>
    obtain ⟨C, D, F, hqs, hroom⟩ := h.queues
    exact ⟨h.size_eq, h.one, h.used, h.counted, h.fits, C, _, F, hqs.writeConsumed hw hq, hroom⟩
  | @writeProduced n q hw hq =>
    obtain ⟨C, D, F, hqs, hroom⟩ := h.queues
    exact ⟨h.size_eq, h.one, h.used, h.counted, h.fits, C, D, _, hqs.writeProduced hw hq,
      fun i hi => (hroom i hi).trans (Nat.le_add_right F n)⟩

theorem room_start {blockSize : ℕ} {fifo : Fifo} (exitWait : ℕ) (late : List (ℤ × ℤ × ℤ))
    (hpos : 0 < blockSize) (hfifo : Fifo.new blockSize = some fifo) :
    Room blockSize (Receiver.start blockSize exitWait late fifo) :=
  ⟨rfl, nofun, nofun, fun _ => (congrArg Finset.card Bitmap.bits_zero).symm, nofun, 0, 0, _,
    Queues.start hpos hfifo, nofun⟩

end Room

end Udpcast.ReceiveData
