import Udpcast.ReceiveData.Table

/-!
# The answer OK

OK is sent by `complete_slice`, by a handler that is about to call it, for a REQACK of a slice on
record, and for a REQACK when no slot can be had.  The sender frees a slice on it.
-/

namespace Udpcast.ReceiveData

open Receiver

/-- All blocks of slice `s` are there: it is done in the table, on record, or about to be completed
by the handler that is running. -/
def Available (r : Receiver) (s : ℤ) : Prop :=
  (∃ i, (r.slices i).state = .done ∧ (r.slices i).sliceNo = s) ∨ r.completed s = true ∨
    ∃ i b, r.phase = .completing i ∧ (r.slices i).state ≠ .free ∧ (r.slices i).sliceNo = s ∧
      Complete b i r

/-- Every OK that was sent is for a slice whose blocks are there. -/
def OksSound (r : Receiver) : Prop := ∀ s, Event.ok s ∈ r.trace → Available r s

section Oks

variable {r r' : Receiver} {a : Action}

theorem complete_congr {b : ℕ} {i : Fin 8} (h : Complete b i r) (hs : r'.slices = r.slices)
    (hb : r'.blockSize = r.blockSize) : Complete b i r' := by
  obtain ⟨hbytes, n, hn, hle⟩ := h
  rw [Complete, hs, blocksInSlice_congr hb]
  exact ⟨hbytes, n, hn, hle⟩

/-- While `complete_slice` is about to run only the writer takes steps. -/
theorem StepTo.of_completing {i : Fin 8} (h : StepTo r a r') (hphase : r.phase = .completing i) :
    a = .complete ∨ r'.phase = .completing i ∧ r'.slices = r.slices ∧
      r'.blockSize = r.blockSize := by
  cases h with
  | complete _ _ => exact Or.inl rfl
  | write _ hw =>
    obtain ⟨_, _, rfl⟩ := writeBlock_frame hw
    exact Or.inr ⟨hphase, rfl, rfl⟩
  | writeConsumed _ _ => exact Or.inr ⟨hphase, rfl, rfl⟩
  | writeProduced _ _ => exact Or.inr ⟨hphase, rfl, rfl⟩
  | seeded hp =>
    rw [hphase] at hp
    cases hp
  | seedNoSlot hp _ =>
    rw [hphase] at hp
    cases hp
  | seed hp _ =>
    rw [hphase] at hp
    cases hp
  | expire hp _ _ =>
    rw [hphase] at hp
    cases hp
  | skipped hp =>
    rw [hphase] at hp
    cases hp
  | ignored hp _ _ =>
    rw [hphase] at hp
    cases hp
  | answered hp _ _ =>
    rw [hphase] at hp
    cases hp
  | handled hp _ _ _ _ _ _ _ =>
    rw [hphase] at hp
    cases hp
  | scan hp =>
    rw [hphase] at hp
    cases hp

theorem Change.completed_mono (h : Change r a r') {s : ℤ} (hs : r.completed s = true) :
    r'.completed s = true := by
  cases h with
  | kept _ _ hrecord _ => rwa [completed_congr hrecord]
  | claimed _ _ _ _ _ _ _ _ hrecord _ => rwa [completed_congr hrecord]
  | completed _ _ _ _ _ _ hrecord _ => exact (hrecord s).mpr (Or.inr hs)

theorem Available.step {s : ℤ} (h : Available r s) (hc : Consistent r) (hused : CompletingUsed r)
    (hs : StepTo r a r') : Available r' s := by
  have hchange := hs.change hused
  rcases h with ⟨i, hi, rfl⟩ | hdone | ⟨i, b, hphase, hfree, rfl, hall⟩
  · exact Or.inr (Or.inl (hchange.completed_mono (hc.done i hi)))
  · exact Or.inr (Or.inl (hchange.completed_mono hdone))
  · rcases hs.of_completing hphase with rfl | ⟨hphase', hslices, hb⟩
    · have hi := hs.done hphase
      have hno : (r'.slices i).sliceNo = (r.slices i).sliceNo := by
        cases hchange with
        | kept _ hsame _ _ => exact (hsame i).2.1
        | claimed hopens _ _ _ _ _ _ _ _ _ => cases hopens
        | @completed j _ hphase' _ _ _ hself _ _ =>
          rw [hphase] at hphase'
          injection hphase' with hij
          rw [hij, hself]
      exact Or.inl ⟨i, hi, hno⟩
    · exact Or.inr (Or.inr ⟨i, b, hphase', by rwa [hslices], by rw [hslices],
        complete_congr hall hslices hb⟩)

theorem OksSound.step (h : OksSound r) (hc : Consistent r) (hused : CompletingUsed r)
    (hno : noSlotOk r a = none) (hs : StepTo r a r') : OksSound r' := by
  have hchange := hs.change hused
  have hold : ∀ s, Event.ok s ∈ r.trace → Available r' s := fun s hmem =>
    (h s hmem).step hc hused hs
  have hquiet : ∀ s, Quiet r a r' (.ok s) → Available r' s := by
    intro s hq
    cases hq with
    | completing hphase hfree hall => exact Or.inr (Or.inr ⟨_, _, hphase, hfree, rfl, hall⟩)
    | onRecord hdone => exact Or.inr (Or.inl (hchange.completed_mono hdone))
    | noSlot hslot =>
      rw [hno] at hslot
      cases hslot
  intro s hmem
  cases hchange with
  | kept _ _ _ htrace =>
    obtain ⟨es, ht, hes⟩ := htrace
    rw [ht] at hmem
    rcases List.mem_append.mp hmem with hmem | hmem
    · exact hold s hmem
    · exact hquiet s (hes _ hmem)
  | claimed _ _ _ _ _ _ _ _ _ htrace =>
    obtain ⟨es, ht, hes⟩ := htrace
    rw [ht] at hmem
    rcases List.mem_append.mp hmem with hmem | hmem
    · exact hold s hmem
    · rcases List.mem_cons.mp hmem with hmem | hmem
      · cases hmem
      · exact hquiet s (hes _ hmem)
  | @completed i _ _ _ _ _ hself _ htrace =>
    rw [htrace] at hmem
    rcases List.mem_append.mp hmem with hmem | hmem
    · exact hold s hmem
    · have hs' : s = (r.slices i).sliceNo := by simpa using hmem
      exact Or.inl ⟨i, by rw [hself], by rw [hself, hs']⟩

/-- An OK that is sent because no slot can be had. -/
theorem not_oksSound {s : ℤ} (hno : noSlotOk r a = some s)
    (hs : StepTo r a r') : ¬ OksSound r' := by
  intro hsound
  cases a with
  | receive top now d =>
    cases d with
    | reqack m =>
      simp only [noSlotOk] at hno
      split at hno
      swap
      · cases hno
      rename_i hcond
      obtain ⟨hnone, hfree, hdone⟩ := hcond
      obtain rfl := Option.some.inj hno
      have hall := freeSlot_eq_none.mp hfree
      cases hs with
      | ignored _ hreq _ => cases hreq
      | answered _ _ _ =>
        rcases hsound m.sliceNo (List.mem_append_right _ List.mem_cons_self) with
          ⟨i, hi, -⟩ | hrec | ⟨i, b, hphase, -⟩
        · rw [emit_slices, armed_slices, hall i] at hi
          cases hi
        · have hsame : (((armed r now).emit (.ok m.sliceNo))).completed m.sliceNo
              = r.completed m.sliceNo := completed_congr (armed_completedSlices r now) _
          rw [hsame, hdone] at hrec
          cases hrec
        · rw [emit_phase, armed_phase] at hphase
          cases hphase
      | handled _ hd hopen _ _ _ _ _ =>
        obtain ⟨rfl, rfl⟩ := Prod.mk.inj (Option.some.inj hd)
        rcases hopen.slot with ⟨-, hfound, hstate⟩ | ⟨-, hstate, -⟩
        · rw [armed_slices] at hfound hstate
          exact findSlice_none hnone _ hstate hfound
        · rw [armed_slices] at hstate
          exact hstate (hall _)
    | data _ _ => cases hno
    | fec _ _ => cases hno
    | skipped => cases hno
    | unexpected => cases hno
  | seed => cases hno
  | expire _ => cases hno
  | complete => cases hno
  | scan _ => cases hno
  | write => cases hno
  | writeConsumed => cases hno
  | writeProduced => cases hno

end Oks

/-- In every run in which no REQACK is answered OK for want of a slot, every OK is for a slice whose
blocks are there; and the first such answer is not. -/
theorem ok_sound (blockSize exitWait : ℕ) (late : List (ℤ × ℤ × ℤ)) (fifo : Fifo) (r : Receiver)
    (hrun : Run.Reach step (fun r a => noSlotOk r a = none)
      (Receiver.start blockSize exitWait late fifo) r) :
    OksSound r ∧ ∀ a r', step r a = some r' → (OksSound r' ↔ noSlotOk r a = none) := by
  have hstart : OksSound (Receiver.start blockSize exitWait late fifo) := fun _ h =>
    absurd h List.not_mem_nil
  obtain ⟨hsound, hc, hused⟩ := hrun.invariant
    (I := fun r => OksSound r ∧ Consistent r ∧ CompletingUsed r)
    ⟨hstart, consistent_start _ _ _ _, completingUsed_start _ _ _ _⟩
    fun s a s' ⟨hsound, hc, hused⟩ hno hs =>
      have hs' := step_cases hs
      ⟨hsound.step hc hused hno hs', hc.change (hs'.change hused), hs'.completingUsed hused⟩
  refine ⟨hsound, fun a r' hs => ⟨fun hsound' => ?_, fun hno =>
    hsound.step hc hused hno (step_cases hs)⟩⟩
  by_contra hne
  obtain ⟨s, hs'⟩ := Option.ne_none_iff_exists'.mp hne
  exact not_oksSound hs' (step_cases hs) hsound'

/-- Ten slices are received, and the last one is asked for again. -/
theorem ok_sound_tenSlices : ∃ r : Receiver, Event.ok 9 ∈ r.trace ∧ OksSound r := by
  have hexec : (Run.exec step (fun r a => noSlotOk r a = none) tenSlicesStart
      (eachOnce 10 ++ [.receive 0 0 (.reqack ⟨9, 2, 1⟩)])).map
      (fun r => decide (Event.ok 9 ∈ r.trace)) = some true := by decide +kernel
  obtain ⟨r, hr, hp⟩ := Run.exists_reach_of_exec hexec
  exact ⟨r, of_decide_eq_true hp, (ok_sound 1 500 [] _ r hr).1⟩

/-- REQACKs for nine slices of which no block has arrived: the ninth is answered OK. -/
theorem ok_unsound : ∃ r : Receiver,
    Run.Reach step (fun _ a => Genuine tenSlices a) tenSlicesStart r ∧
      Starts tenSlices tenSlicesStart ∧ ¬ OksSound r := by
  have hexec : (Run.exec step (fun _ a => Genuine tenSlices a) tenSlicesStart
      (.seed :: (List.range 9).flatMap fun (s : ℕ) =>
        [.receive 0 0 (.reqack ⟨s, 2, 0⟩), .scan 0])).map
      (fun r => decide (Event.ok 8 ∈ r.trace ∧ r.completed 8 = false ∧ r.phase = .polling ∧
        ∀ i, (r.slices i).state = .receiving)) = some true := by decide +kernel
  obtain ⟨r, hr, hp⟩ := Run.exists_reach_of_exec hexec
  obtain ⟨hok, hdone, hphase, hall⟩ := of_decide_eq_true hp
  refine ⟨r, hr, tenSlicesStart_starts, fun hsound => ?_⟩
  rcases hsound 8 hok with ⟨i, hi, -⟩ | hrec | ⟨i, b, hp, -⟩
  · rw [hall i] at hi
    cases hi
  · rw [hdone] at hrec
    cases hrec
  · rw [hphase] at hp
    cases hp

end Udpcast.ReceiveData
