import Udpcast.ReceiveData.Queues
import Udpcast.ReceiveData.Table

/-!
# The ring regions of the slots

`new_slice` takes the base of a slot from the consumer position of the free memory, which moves
only when a slice completes.  The regions are disjoint as long as a slot for a data slice is
claimed only when no other data slice is being received.
-/

namespace Udpcast.ReceiveData

open Receiver

/-- The regions of the slots that are being received are disjoint from each other and from the
bytes in `fifo.data`. -/
def Disjointed (r : Receiver) : Prop :=
  (∀ i j, i ≠ j → (r.slices i).state = .receiving → (r.slices j).state = .receiving →
    Disjoint (Ring.cells r.fifo.dataBufSize (r.slices i).base (r.slices i).bytes)
      (Ring.cells r.fifo.dataBufSize (r.slices j).base (r.slices j).bytes)) ∧
  ∀ i, (r.slices i).state = .receiving →
    Disjoint (Ring.cells r.fifo.dataBufSize (r.slices i).base (r.slices i).bytes)
      (Ring.cells r.fifo.dataBufSize r.fifo.data.getConsumerPosition r.fifo.data.getWaiting)

/-- A slot for a data slice is claimed only when no other data slice is being received. -/
def ClaimsAlone (t : Transfer) (r : Receiver) (a : Action) : Prop :=
  ∀ s ∈ opens r a, 0 < t.size s →
    ∀ j, (r.slices j).state = .receiving → t.size (r.slices j).sliceNo = 0

instance (t : Transfer) (r : Receiver) (a : Action) : Decidable (ClaimsAlone t r a) :=
  inferInstanceAs (Decidable (∀ s ∈ opens r a, _))

section Invariant

variable {t : Transfer}

/-- What holds between the actions of a receiver of `t`. -/
structure Regions (t : Transfer) (r : Receiver) : Prop where
  blockSize : r.blockSize = t.blockSize
  queues : ∃ C D F, Queues r C D F ∧ ∀ i, (r.slices i).state = .receiving →
    0 < t.size (r.slices i).sliceNo →
      (r.slices i).base = C % r.fifo.dataBufSize ∧ C + maxSliceSize * r.blockSize ≤ F
  alone : ∀ i j, (r.slices i).state = .receiving → (r.slices j).state = .receiving →
    0 < t.size (r.slices i).sliceNo → 0 < t.size (r.slices j).sliceNo → i = j

theorem Regions.disjointed {r : Receiver} (h : Regions t r) (hsized : Sized t r) : Disjointed r := by
  obtain ⟨C, D, F, hq, hslots⟩ := h.queues
  have hempty : ∀ i, (r.slices i).state = .receiving → t.size (r.slices i).sliceNo = 0 →
      Ring.cells r.fifo.dataBufSize (r.slices i).base (r.slices i).bytes = ∅ := by
    intro i hi h0
    rw [hsized.bytes_receiving hi, h0]
    exact Set.eq_empty_of_forall_notMem fun x ⟨k, hk, _⟩ => by omega
  refine ⟨fun i j hij hi hj => ?_, fun i hi => ?_⟩
  · rcases Nat.eq_zero_or_pos (t.size (r.slices i).sliceNo) with h0 | hpi
    · rw [hempty i hi h0]
      exact Set.empty_disjoint _
    · rcases Nat.eq_zero_or_pos (t.size (r.slices j).sliceNo) with h0 | hpj
      · rw [hempty j hj h0]
        exact Set.disjoint_empty _
      · exact absurd (h.alone i j hi hj hpi hpj) hij
  · rcases Nat.eq_zero_or_pos (t.size (r.slices i).sliceNo) with h0 | hpi
    · rw [hempty i hi h0]
      exact Set.empty_disjoint _
    · obtain ⟨hbase, hroom⟩ := hslots i hi hpi
      have hle := hq.le
      have hsize := t.size_le (r.slices i).sliceNo
      have hbytes := hsized.bytes_receiving hi
      rw [← h.blockSize] at hsize
      rw [hbase, Ring.cells_mod, hq.data.getConsumerPosition, hq.dataSize, Ring.cells_mod,
        hq.data.getWaiting]
      -- the unwritten bytes end where the slot begins
      exact (Ring.disjoint_cells (by omega) (by omega)).symm

theorem Regions.congr {r r' : Receiver} (h : Regions t r) (hb : r'.blockSize = r.blockSize)
    (hs : r'.slices = r.slices) (hf : r'.fifo = r.fifo) (hw : r'.writer = r.writer) :
    Regions t r' := by
  obtain ⟨C, D, F, hq, hslots⟩ := h.queues
  exact
    { blockSize := by rw [hb, h.blockSize]
      queues := ⟨C, D, F, hq.congr hb (by rw [hf]) (by rw [hf]) (by rw [hf]) hw, by
        rw [hs, hf, hb]
        exact hslots⟩
      alone := by rw [hs]; exact h.alone }

/-- Opening a slot, when a new slot of a data slice is the only one. -/
theorem Regions.opened {r r₁ : Receiver} {c : Option (Fin 8)} {s : ℤ} {i : Fin 8}
    (h : Regions t r) (hopen : Opened r c s i r₁) (halone : r₁ ≠ r → 0 < t.size s →
      ∀ j, (r.slices j).state = .receiving → t.size (r.slices j).sliceNo = 0) :
    Regions t r₁ := by
  obtain ⟨hother, hphase, hb, hf, hw, -⟩ := hopen.frame
  rcases hopen.slot with ⟨rfl, -, -⟩ | ⟨-, hstate, -, hself, hready⟩
  · exact h
  have hne : r₁ ≠ r := fun heq => hstate (by rw [← heq, hself]; rfl)
  obtain ⟨C, D, F, hq, hslots⟩ := h.queues
  have hroom := hq.waited hready
  -- the new slot is the only data slice that is being received
  have hpos : ∀ j, (r.slices j).state = .receiving → 0 < t.size s →
      0 < t.size (r.slices j).sliceNo → False := fun j hj hs hjs => by
    have := halone hne hs j hj
    omega
  refine
    { blockSize := by rw [hb, h.blockSize]
      queues := ⟨C, D, F, hq.congr hb (by rw [hf]) (by rw [hf]) (by rw [hf]) hw, ?_⟩
      alone := ?_ }
  · intro j hj hjs
    by_cases hji : j = i
    · subst hji
      rw [hself, hf, hb]
      refine ⟨?_, ?_⟩
      · show r.fifo.freeMemQueue.getConsumerPosition = C % r.fifo.dataBufSize
        rw [hq.free.getConsumerPosition, hq.freeSize]
      · rw [Nat.mul_comm]
        exact hroom
    · rw [hother j hji] at hj hjs ⊢
      rw [hf, hb]
      exact hslots j hj hjs
  · intro j k hj hk hjs hks
    by_cases hji : j = i
    · by_cases hki : k = i
      · rw [hji, hki]
      · subst hji
        rw [hself] at hjs
        rw [hother k hki] at hk hks
        exact (hpos k hk hjs hks).elim
    · rw [hother j hji] at hj hjs
      by_cases hki : k = i
      · subst hki
        rw [hself] at hks
        exact (hpos j hj hks hjs).elim
      · rw [hother k hki] at hk hks
        exact h.alone j k hj hk hjs hks

theorem Regions.filled {r r' : Receiver} {b : ℕ} {i : Fin 8} (h : Regions t r)
    (hfill : Filled b i r r') : Regions t r' := by
  obtain ⟨C, D, F, hq, hslots⟩ := h.queues
  obtain ⟨buffer, hfifo⟩ := hfill.fifo
  obtain ⟨_, _, _, _, hrest⟩ := hfill.rest
  have hb : r'.blockSize = r.blockSize := hfill.blockSize
  have hw : r'.writer = r.writer := by rw [hrest]
  have hsize : r'.fifo.dataBufSize = r.fifo.dataBufSize := by rw [hfifo]
  refine
    { blockSize := hb.trans h.blockSize
      queues := ⟨C, D, F, hq.congr hb hsize (by rw [hfifo]) (by rw [hfifo]) hw, ?_⟩
      alone := ?_ }
  · intro j
    rw [hfill.slot_state, hfill.slot_sliceNo, hfill.slot_base, hsize, hb]
    exact hslots j
  · intro j k
    rw [hfill.slot_state, hfill.slot_sliceNo, hfill.slot_state, hfill.slot_sliceNo]
    exact h.alone j k

theorem Regions.finished {r r' : Receiver} {i : Fin 8} (h : Regions t r) (hsized : Sized t r)
    (hfin : Finished r i r') (hstate : (r.slices i).state = .receiving) :
    Regions t { r' with phase := .scanning } := by
  obtain ⟨C, D, F, hq, hslots⟩ := h.queues
  have hbytes := hsized.bytes_receiving hstate
  have hsize := t.size_le (r.slices i).sliceNo
  rw [← h.blockSize] at hsize
  have hself : ((finishSlot r i).slices i).state = .done := by rw [finishSlot_slices_self]
  -- the slots that are still being received are as before
  have hkeep : ∀ j, ((finishSlot r i).slices j).state = .receiving →
      j ≠ i ∧ (finishSlot r i).slices j = r.slices j := by
    intro j hj
    have hji : j ≠ i := fun hji => by
      rw [hji, hself] at hj
      cases hj
    exact ⟨hji, finishSlot_slices_of_ne r hji⟩
  have halone : ∀ j k, ((finishSlot r i).slices j).state = .receiving →
      ((finishSlot r i).slices k).state = .receiving →
      0 < t.size ((finishSlot r i).slices j).sliceNo →
      0 < t.size ((finishSlot r i).slices k).sliceNo → j = k := by
    intro j k hj hk
    obtain ⟨hji, hj'⟩ := hkeep j hj
    obtain ⟨hki, hk'⟩ := hkeep k hk
    rw [hj'] at hj ⊢
    rw [hk'] at hk ⊢
    exact h.alone j k hj hk
  have hslots' : ∀ j, ((finishSlot r i).slices j).state = .receiving →
      0 < t.size ((finishSlot r i).slices j).sliceNo →
      ((finishSlot r i).slices j).base = C % r.fifo.dataBufSize
        ∧ C + maxSliceSize * r.blockSize ≤ F := by
    intro j hj
    obtain ⟨hji, hj'⟩ := hkeep j hj
    rw [hj'] at hj ⊢
    exact hslots j hj
  cases hfin with
  | already hdone =>
    rw [hdone] at hstate
    cases hstate
  | data q₁ q₂ hdone hno hpos hq₁ hq₂ =>
    have hroom := (hslots i hstate (by omega)).2
    have hq' : Queues { ({ finishSlot r i with
        fifo.freeMemQueue := q₁, fifo.data := q₂ } : Receiver).emit (.ok (r.slices i).sliceNo) with
        phase := .scanning } (C + (r.slices i).bytes) D F :=
      hq.complete (by omega) hq₁ hq₂ ⟨r.fifo.buffer, rfl⟩ rfl rfl
    exact
      { blockSize := h.blockSize
        queues := ⟨_, D, F, hq', fun j hj hjs => by
          obtain ⟨hji, hj'⟩ := hkeep j hj
          have hjs' : 0 < t.size ((finishSlot r i).slices j).sliceNo := hjs
          rw [hj'] at hjs'
          have hj'' : ((finishSlot r i).slices j).state = .receiving := hj
          rw [hj'] at hj''
          exact absurd (h.alone j i hj'' hstate hjs' (by omega)) hji⟩
        alone := halone }
  | atEnd _ _ _ _ =>
    exact
      { blockSize := h.blockSize
        queues := ⟨C, D, F, hq.produceEnd rfl rfl rfl, hslots'⟩
        alone := halone }
  | incomplete _ _ _ _ =>
    exact
      { blockSize := h.blockSize
        queues := ⟨C, D, F, hq.congr rfl rfl rfl rfl rfl, hslots'⟩
        alone := halone }

theorem Regions.step {r r' : Receiver} {a : Action} (h : Regions t r) (hsized : Sized t r)
    (hused : CompletingUsed r) (halone : ClaimsAlone t r a) (hs : StepTo r a r') :
    Regions t r' := by
  cases hs with
  | seeded _ => exact h.congr rfl rfl rfl rfl
  | seedNoSlot _ _ => exact h.congr rfl rfl rfl rfl
  | @seed s b x rest i r₁ hphase hopen =>
    have h₁ := h.opened hopen fun hne hpos => by
      rcases hopen.slot with ⟨heq, -, -⟩ | ⟨hnew, hstate, -, -, -⟩
      · exact absurd heq hne
      · exact halone s (opens_eq_some.mpr ⟨⟨b, brings_seed hphase⟩, hnew,
          fun hnone => hstate (freeSlot_eq_none.mp hnone i), fun hr => by cases hr⟩) hpos
    exact (h₁.filled (Filled.learnBytes i r₁ b)).congr rfl rfl rfl rfl
  | expire _ _ _ => exact h.congr rfl rfl rfl rfl
  | skipped _ =>
    obtain ⟨_, harmed⟩ := armed_frame r _
    rw [harmed]
    exact h.congr rfl rfl rfl rfl
  | ignored _ _ _ =>
    obtain ⟨_, harmed⟩ := armed_frame r _
    rw [harmed]
    exact h.congr rfl rfl rfl rfl
  | answered _ _ _ =>
    obtain ⟨_, harmed⟩ := armed_frame r _
    rw [harmed]
    exact h.congr rfl rfl rfl rfl
  | @handled top now d s b i r₁ r' hphase hd hopen _ hfill _ hreq _ =>
    obtain ⟨_, harmed⟩ := armed_frame r now
    have h₀ : Regions t (armed r now) := by
      rw [harmed]
      exact h.congr rfl rfl rfl rfl
    have h₁ := h₀.opened hopen fun hne hpos => by
      rw [armed_slices]
      rcases hopen.slot with ⟨heq, -, -⟩ | ⟨hnew, hstate, -, -, -⟩
      · exact absurd heq hne
      · rw [findSlice_congr (armed_slices r now)] at hnew
        rw [armed_slices] at hstate
        refine halone s (opens_eq_some.mpr ⟨⟨b, hd⟩, hnew,
          fun hnone => hstate (freeSlot_eq_none.mp hnone i), fun hr => ?_⟩) hpos
        -- a REQACK for a slice on record does not claim a slot
        by_contra hdone
        exact hne ((hreq hr).2 (by simpa using hdone))
    exact h₁.filled hfill
  | @complete i r₁ hphase hfin =>
    cases hstate : (r.slices i).state with
    | free => exact absurd hstate (hused i hphase)
    | receiving => exact h.finished hsized hfin hstate
    | done =>
      cases hfin with
      | already _ => exact h.congr rfl rfl rfl rfl
      | data _ _ hne _ _ _ _ => exact absurd hstate hne
      | atEnd hne _ _ _ => exact absurd hstate hne
      | incomplete hne _ _ _ => exact absurd hstate hne
  | scan _ =>
    rw [scanEnd]
    split
    · exact h.congr rfl rfl rfl rfl
    · split
      · exact h.congr rfl rfl rfl rfl
      · exact h.congr rfl rfl rfl rfl
  | write hwait hw =>
    obtain ⟨C, D, F, hq, hslots⟩ := h.queues
    have hq' := hq.write hwait hw
    obtain ⟨_, _, rfl⟩ := writeBlock_frame hw
    exact ⟨h.blockSize, ⟨C, D, F, hq', hslots⟩, h.alone⟩
  | writeConsumed hw hq =>
    obtain ⟨C, D, F, hqs, hslots⟩ := h.queues
    exact ⟨h.blockSize, ⟨C, _, F, hqs.writeConsumed hw hq, hslots⟩, h.alone⟩
  | @writeProduced n q hw hq =>
    obtain ⟨C, D, F, hqs, hslots⟩ := h.queues
    refine ⟨h.blockSize, ⟨C, D, _, hqs.writeProduced hw hq, fun i hi his => ?_⟩, h.alone⟩
    obtain ⟨hbase, hroom⟩ := hslots i hi his
    exact ⟨hbase, hroom.trans (Nat.le_add_right F n)⟩

/-- A second data slice has the base of the first. -/
theorem Regions.overlap {r r' : Receiver} {a : Action} (h : Regions t r) (hsized : Sized t r)
    (hused : CompletingUsed r) (hgen : Genuine t a) (hs : StepTo r a r')
    (halone : ¬ ClaimsAlone t r a) : ¬ Disjointed r' := by
  intro hdis
  refine halone fun s hopens hpos j hj => ?_
  by_contra hjs
  obtain ⟨C, D, F, hq, hslots⟩ := h.queues
  have hsized' := hsized.step hused hgen hs
  cases hs.change hused with
  | kept hnone _ _ _ =>
    rw [hopens] at hnone
    cases hnone
  | @claimed i s' b hopens' _ hstate hsame hstate' hno hbase _ _ _ =>
    rw [hopens] at hopens'
    obtain rfl := Option.some.inj hopens'
    have hji : j ≠ i := fun heq => hstate (heq ▸ hj)
    obtain ⟨hjstate, hjno, hjbase, -⟩ := hsame j hji
    have hj' : (r'.slices j).state = .receiving := by rw [hjstate, hj]
    have hbytes := hsized'.bytes_receiving hstate'
    have hbytes' := hsized'.bytes_receiving hj'
    have hover := hdis.1 j i hji hj' hstate'
    rw [hno] at hbytes
    rw [hjno] at hbytes'
    rw [hjbase, (hslots j hj (by omega)).1, hbase, hq.free.getConsumerPosition, hq.freeSize] at hover
    exact Set.disjoint_left.mp hover (Ring.mem_cells_self (by omega)) (Ring.mem_cells_self (by omega))
  | completed ha _ _ _ _ _ _ _ =>
    rw [ha] at hopens
    cases hopens

end Invariant

theorem regions_start {t : Transfer} {r : Receiver} (h : Starts t r) : Regions t r := by
  obtain ⟨exitWait, late, fifo, rfl, hfifo, -⟩ := h
  have hfree : ∀ i, ((Receiver.start t.blockSize exitWait late fifo).slices i).state
      = .receiving → False := fun i hi => by cases hi
  exact ⟨rfl, ⟨0, 0, _, Queues.start t.blockSize_pos hfifo, fun i hi => (hfree i hi).elim⟩,
    fun i j hi => (hfree i hi).elim⟩

/-- In every run of the receiver on datagrams of a transfer in which a slot for a data slice is
claimed only when no other data slice is being received, the regions of the slots are disjoint
from each other and from the bytes that the writer has not written; and the first step that
claims a slot otherwise makes two regions overlap. -/
theorem regions_disjoint (t : Transfer) (r₀ r : Receiver) (hstart : Starts t r₀)
    (hrun : Run.Reach step (fun r a => Genuine t a ∧ ClaimsAlone t r a) r₀ r) :
    Disjointed r ∧ ∀ a r', Genuine t a → step r a = some r' →
      (Disjointed r' ↔ ClaimsAlone t r a) := by
  obtain ⟨hinv, hsized, hused⟩ := hrun.invariant
    (I := fun r => Regions t r ∧ Sized t r ∧ CompletingUsed r)
    ⟨regions_start hstart, sized_start hstart, completingUsed_of_starts hstart⟩
    fun s a s' ⟨hr, hsized, hused⟩ ⟨hgen, halone⟩ hs =>
      ⟨hr.step hsized hused halone (step_cases hs), hsized.step hused hgen (step_cases hs),
        (step_cases hs).completingUsed hused⟩
  refine ⟨hinv.disjointed hsized, fun a r' hgen hs => ⟨fun hdis => ?_, fun halone => ?_⟩⟩
  · by_contra halone
    exact hinv.overlap hsized hused hgen (step_cases hs) halone hdis
  · exact (hinv.step hsized hused halone (step_cases hs)).disjointed
      (hsized.step hused hgen (step_cases hs))

/-- The first blocks of slices 0 and 1: both slots are being received, and both begin at ring
position 0. -/
theorem regions_overlap : ∃ r, Run.Reach step (fun _ a => Genuine tenSlices a) tenSlicesStart r ∧
    Starts tenSlices tenSlicesStart ∧ ¬ Disjointed r := by
  have hexec : (Run.exec step (fun _ a => Genuine tenSlices a) tenSlicesStart
      [.seed, block 0 0, .scan 0, block 1 0]).map
      (fun r => decide ((r.slices 0).state = .receiving ∧ (r.slices 1).state = .receiving ∧
        (r.slices 0).base = 0 ∧ (r.slices 1).base = 0 ∧ 0 < (r.slices 0).bytes ∧
        0 < (r.slices 1).bytes)) = some true := by decide +kernel
  obtain ⟨r, hr, hp⟩ := Run.exists_reach_of_exec hexec
  obtain ⟨h0, h1, hb0, hb1, hn0, hn1⟩ := of_decide_eq_true hp
  refine ⟨r, hr, tenSlicesStart_starts, fun hdis => ?_⟩
  have h := hdis.1 0 1 (by decide) h0 h1
  rw [hb0, hb1] at h
  exact Set.disjoint_left.mp h (Ring.mem_cells_self hn0) (Ring.mem_cells_self hn1)

/-- One slice after the other. -/
theorem regions_disjoint_oneAfterTheOther :
    ∃ r, (r.slices 0).state = .done ∧ (r.slices 1).state = .receiving ∧ Disjointed r := by
  have hexec : (Run.exec step (fun r a => Genuine tenSlices a ∧ ClaimsAlone tenSlices r a)
      tenSlicesStart (eachOnce 1 ++ [block 1 0])).map
      (fun r => decide ((r.slices 0).state = .done ∧ (r.slices 1).state = .receiving))
      = some true := by decide +kernel
  obtain ⟨r, hr, hp⟩ := Run.exists_reach_of_exec hexec
  obtain ⟨h0, h1⟩ := of_decide_eq_true hp
  exact ⟨r, h0, h1, (regions_disjoint tenSlices _ r tenSlicesStart_starts hr).1⟩

end Udpcast.ReceiveData
