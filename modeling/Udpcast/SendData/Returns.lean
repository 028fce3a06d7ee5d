import Udpcast.SendData.Answers
import Udpcast.SendData.Partition

/-!
# The OKs behind the end of the main loop

A slice leaves the table when all participants are ready, and the main loop is left when no slice is
pending behind the end of the input, or when nobody is there.
-/

namespace Udpcast.SendData

open Sender

/-- The messages that are on their way from the return channel to the main loop. -/
def Sender.arrived (x : Sender) (m : IncomingMsg) : Prop := m ∈ x.msgs ∨ x.held = some m

/-- What a step does to the slices in flight and to the OKs. -/
structure Tally (x x' : Sender) : Prop where
  valid : ∀ cl, x'.db.isParticipantValid cl = true → x.db.isParticipantValid cl = true
  freed : ∀ i, (x.slices i).inFlight → ¬(x'.slices i).inFlight →
    x.db.nrParticipants ≤ (x.slices i).nrReady
  ready : ∀ i cl, (x'.slices i).inFlight → (x'.slices i).readySet.getLsbD cl = true →
    (x.slices i).inFlight ∧ (x.slices i).readySet.getLsbD cl = true ∨
      x.msgs.head? = some (.ok (x'.slices i).sliceNo cl)

/-- The slot is in flight as before, with no new OK. -/
structure Holds (s s' : Slice) : Prop where
  inFlight : s'.inFlight ↔ s.inFlight
  readySet : ∀ cl, s'.readySet.getLsbD cl = true → s.readySet.getLsbD cl = true

section Tally

variable {x x' : Sender} {a : Action}

theorem Holds.refl (s : Slice) : Holds s s := ⟨Iff.rfl, fun _ => id⟩

theorem holds_modify {f : Slice → Slice} {i : Fin 8} (h : Holds (x.slices i) (f (x.slices i)))
    (j : Fin 8) : Holds (x.slices j) ((x.modify i f).slices j) := by
  by_cases hji : j = i
  · subst hji
    rw [modify_slices_self]
    exact h
  · rw [modify_slices_of_ne _ _ _ hji]
    exact Holds.refl _

theorem holds_requested (x : Sender) (i j : Fin 8) (rxmitId : ℤ) :
    Holds (x.slices j) ((requested (bumped x i rxmitId) i).slices j) := by
  refine ⟨(sameSlice_requested x i j rxmitId).inFlight_iff, fun cl hcl => ?_⟩
  rwa [(sameVotes_requested x i j rxmitId).readySet] at hcl

theorem Tally.of_holds (hs : ∀ i, Holds (x.slices i) (x'.slices i))
    (hdb : ∀ cl, x'.db.isParticipantValid cl = true → x.db.isParticipantValid cl = true) :
    Tally x x' where
  valid := hdb
  freed i hi hi' := absurd ((hs i).inFlight.mpr hi) hi'
  ready i cl hi hcl := Or.inl ⟨(hs i).inFlight.mp hi, (hs i).readySet cl hcl⟩

theorem Tally.quiet (hs : ∀ i, Holds (x.slices i) (x'.slices i)) (hdb : x'.db = x.db) : Tally x x' :=
  Tally.of_holds hs fun _ hcl => hdb ▸ hcl

theorem valid_afterDrop {i : Fin 8} {cl : ℕ} (h : (afterDrop x i).isParticipantValid cl = true) :
    x.db.isParticipantValid cl = true := by
  unfold afterDrop at h
  split at h
  · exact ((valid_foldl_remove _ _ _).mp h).1
  · exact h

theorem getLsbD_ready {s : Slice} {cl j : ℕ} (h : (s.ready cl).readySet.getLsbD j = true) :
    s.readySet.getLsbD j = true ∨ j = cl := by
  rw [(ready_eq s cl)] at h
  dsimp only [join] at h
  split at h
  · exact Or.inl h
  · rw [Bitmap.insert, BitVec.getLsbD_or, BitVec.getLsbD_twoPow, Bool.or_eq_true,
      Bool.and_eq_true, decide_eq_true_iff, decide_eq_true_iff] at h
    rcases h with h | ⟨-, h⟩
    · exact Or.inl h
    · exact Or.inr h.symm

theorem getLsbD_answer {find : ℤ → Option (Fin 8)} {i : Fin 8} {s : Slice} {m : IncomingMsg} {cl : ℕ}
    (h : (Slice.answer find i s m).readySet.getLsbD cl = true) :
    s.readySet.getLsbD cl = true ∨ ∃ no, m = .ok no cl ∧ find no = some i := by
  cases m with
  | ok no k =>
    simp only [Slice.answer] at h
    split at h
    · rename_i hfind
      rcases getLsbD_ready h with h | rfl
      · exact Or.inl h
      · exact Or.inr ⟨no, rfl, hfind⟩
    · exact Or.inl h
  | retransmit no k map rxmit =>
    simp only [Slice.answer] at h
    split at h
    · rw [missing_eq] at h
      exact Or.inl h
    · exact Or.inl h
  | disconnect k =>
    simp only [Slice.answer] at h
    rw [forget_eq, getLsbD_leave, Bool.and_eq_true] at h
    exact Or.inl h.1

theorem valid_handleMessage {m : IncomingMsg} {cl : ℕ}
    (h : (handleMessage x m).db.isParticipantValid cl = true) : x.db.isParticipantValid cl = true := by
  cases m with
  | ok no k =>
    simp only [handleMessage] at h
    cases hfind : findSlice x no with
    | none =>
      rw [hfind] at h
      exact h
    | some i =>
      rw [hfind] at h
      change (x.db.markAnswered k (some no) (x.slices i).rxmitId).isParticipantValid cl = true at h
      rwa [ParticipantsDb.isParticipantValid, ParticipantsDb.used_markAnswered] at h
  | retransmit no k map rxmit =>
    simp only [handleMessage] at h
    cases hfind : findSlice x no with
    | none =>
      rw [hfind] at h
      exact h
    | some i =>
      rw [hfind] at h
      change (x.db.markAnswered k (some no) (x.slices i).rxmitId).isParticipantValid cl = true at h
      rwa [ParticipantsDb.isParticipantValid, ParticipantsDb.used_markAnswered] at h
  | disconnect k =>
    simp only [handleMessage] at h
    rw [ParticipantsDb.isParticipantValid, ParticipantsDb.used_removeParticipant,
      Bitmap.getLsbD_erase, Bool.and_eq_true] at h
    exact h.1

theorem Tally.message {m : IncomingMsg} {rest : List IncomingMsg} (hmsgs : x.msgs = m :: rest) :
    Tally x (handleMessage { x with msgs := rest } m) := by
  have hsame := (handleMessage_frame { x with msgs := rest } m).1
  refine ⟨fun cl hcl => valid_handleMessage (x := { x with msgs := rest }) (m := m) hcl,
    fun i hi hi' => ?_, fun i cl hi hcl => ?_⟩
  · exact absurd ((hsame i).inFlight_iff.mpr hi) hi'
  · rw [slices_handleMessage] at hcl
    rcases getLsbD_answer hcl with hcl | ⟨no, rfl, hfind⟩
    · exact Or.inl ⟨(hsame i).inFlight_iff.mp hi, hcl⟩
    · right
      rw [hmsgs, (hsame i).sliceNo, (findSlice_some hfind).2]
      rfl

theorem StepTo.arrived (hs : StepTo x a x') (hc : Control x) {m : IncomingMsg} (hm : x'.arrived m) :
    x.arrived m ∨ a = .arrive m := by
  cases hs with
  | @arrive m' _ _ =>
    rcases hm with hm | hm
    · exact Or.inl (Or.inl hm)
    · obtain rfl := Option.some.inj hm
      exact Or.inr rfl
  | @enqueue m' hheld =>
    left
    rcases hm with hm | hm
    · rcases List.mem_append.mp hm with hm | hm
      · exact Or.inl hm
      · rw [List.mem_singleton.mp hm]
        exact Or.inr hheld
    · cases hm
  | @dispatch m' rest _ hmsgs =>
    left
    obtain ⟨-, slices, db, trace, heq⟩ := handleMessage_frame { x with msgs := rest } m'
    rw [heq] at hm
    rcases hm with hm | hm
    · left
      rw [hmsgs]
      exact List.mem_cons_of_mem _ hm
    · exact Or.inr hm
  | goto _ => exact Or.inl hm
  | retain _ => exact Or.inl hm
  | acked _ _ _ _ => exact Or.inl hm
  | rexmit _ _ => exact Or.inl hm
  | reqack _ _ => exact Or.inl hm
  | asyncRound h => exact absurd h hc.not_asyncRound
  | form _ _ _ _ _ _ _ => exact Or.inl hm
  | finish _ => exact Or.inl hm
  | encode _ _ => exact Or.inl hm
  | transmit _ _ _ => exact Or.inl hm
  | transmitAsync _ _ _ _ _ => exact Or.inl hm
  | timeout _ _ => exact Or.inl hm
  | allDropped _ _ => exact Or.inl hm
  | readerWait _ hw =>
    left
    rcases readerWait_frame hw with rfl | ⟨_, _, rfl⟩
    · exact hm
    · exact hm
  | readEnd _ => exact Or.inl hm
  | read _ _ => exact Or.inl hm
  | readerConsumed _ _ => exact Or.inl hm
  | readerWrite _ _ => exact Or.inl hm
  | readerProduced _ _ => exact Or.inl hm

theorem StepTo.tally (hs : StepTo x a x') (hc : Control x)
    (hasync : x.config.hasFlag flagAsync = false) : Tally x x' := by
  cases hs with
  | arrive _ _ => exact Tally.quiet (fun _ => Holds.refl _) rfl
  | enqueue _ => exact Tally.quiet (fun _ => Holds.refl _) rfl
  | dispatch _ hmsgs => exact Tally.message hmsgs
  | goto _ => exact Tally.quiet (fun _ => Holds.refl _) rfl
  | retain _ => exact Tally.quiet (fun _ => Holds.refl _) rfl
  | @acked i rest nr fr c q hphase hready _ _ =>
    have hnr : nr = x.db.nrParticipants := by
      have hat := hc.pendingAt
      rw [hphase] at hat
      exact hat.2
    refine ⟨fun _ hcl => hcl, fun j hj hj' => ?_, fun j cl hj hcl => ?_⟩
    · by_cases hji : j = i
      · rw [hji, ← hnr]
        exact hready
      · refine absurd ?_ hj'
        show ((released x i c q).slices j).inFlight
        rwa [released_slices_of_ne _ _ _ hji]
    · change ((released x i c q).slices j).inFlight at hj
      change ((released x i c q).slices j).readySet.getLsbD cl = true at hcl
      left
      by_cases hji : j = i
      · rw [hji, released_slices_self] at hj
        rcases hj with hj | hj
        · cases hj
        · cases hj
      · rw [released_slices_of_ne _ _ _ hji] at hj hcl
        exact ⟨hj, hcl⟩
  | @rexmit i rest fl map good ds _ _ =>
    exact Tally.quiet (holds_modify (x := x) (f := fun s => s.rexmitted map good) (i := i)
      ⟨Iff.rfl, fun _ => id⟩) rfl
  | @reqack i rest nr fr rxmitId _ _ =>
    exact Tally.quiet (fun j => holds_requested x i j rxmitId) rfl
  | asyncRound h => exact absurd h hc.not_asyncRound
  | @form pos bytes m data _ _ _ hfree _ _ _ =>
    refine ⟨fun _ hcl => hcl, fun j hj hj' => ?_, fun j cl hj hcl => ?_⟩
    · by_cases hjp : j = pos
      · rw [hjp, Slice.inFlight, hfree] at hj
        rcases hj with hj | hj
        · cases hj
        · cases hj
      · rw [formed_slices_of_ne _ _ _ hjp] at hj'
        exact absurd hj hj'
    · by_cases hjp : j = pos
      · rw [hjp, formed_slices_self] at hcl
        change (0 : Bitmap).getLsbD cl = true at hcl
        rw [Bitmap.getLsbD_zero] at hcl
        cases hcl
      · rw [formed_slices_of_ne _ _ _ hjp] at hj hcl
        exact Or.inl ⟨hj, hcl⟩
  | finish _ => exact Tally.quiet (fun _ => Holds.refl _) rfl
  | @encode i fecData _ _ =>
    exact Tally.quiet (holds_modify (x := x) (f := fun s => { s with fecData := fecData }) (i := i)
      ⟨Iff.rfl, fun _ => id⟩) rfl
  | @transmit i ds hphase _ _ =>
    have hnew := hc.fresh i (Or.inr hphase)
    refine Tally.quiet (fun j => ?_) rfl
    show Holds _ ((requested (transmitted x i ds) i).slices j)
    by_cases hji : j = i
    · subst hji
      rw [requested_slices_self, transmitted_slices_self]
      exact ⟨⟨fun _ => Or.inl hnew, fun _ => Or.inr rfl⟩, fun _ => id⟩
    · rw [requested_slices_of_ne _ hji, transmitted_slices_of_ne _ _ hji]
      exact Holds.refl _
  | transmitAsync _ _ _ _ hflag =>
    rw [hasync] at hflag
    cases hflag
  | @timeout i rest rxmitId _ _ =>
    exact Tally.of_holds (fun j => holds_requested { x with db := afterDrop x i } i j rxmitId)
      fun cl hcl => valid_afterDrop hcl
  | @allDropped i rest _ _ =>
    exact Tally.of_holds (fun _ => Holds.refl _) fun cl hcl => valid_afterDrop hcl
  | readerWait _ hw =>
    rcases readerWait_frame hw with rfl | ⟨_, _, rfl⟩
    · exact Tally.quiet (fun _ => Holds.refl _) rfl
    · exact Tally.quiet (fun _ => Holds.refl _) rfl
  | readEnd _ => exact Tally.quiet (fun _ => Holds.refl _) rfl
  | read _ _ => exact Tally.quiet (fun _ => Holds.refl _) rfl
  | readerConsumed _ _ => exact Tally.quiet (fun _ => Holds.refl _) rfl
  | readerWrite _ _ => exact Tally.quiet (fun _ => Holds.refl _) rfl
  | readerProduced _ _ => exact Tally.quiet (fun _ => Holds.refl _) rfl

end Tally

/-! ### The end of the main loop -/

/-- Why the main loop has been left, outside asynchronous mode. -/
structure Finished (x : Sender) : Prop where
  atEnd : x.atEnd = true → 0 ∈ x.cuts
  returned : x.phase = .returned → x.atEnd = true ∧ x.pending = [] ∨ x.db.nrParticipants = 0

section Finished

variable {x x' : Sender} {a : Action} {F R P D : ℕ}

theorem formSlice_phase {pos : Fin 8} (h : formSlice x pos = some x') :
    x'.phase = .encoding pos ∨ x'.phase = .sending pos := by
  simp only [formSlice, Option.bind_eq_bind, Option.bind_eq_some_iff] at h
  obtain ⟨sliceNo, -, m, -, bytes, -, data, -, h⟩ := h
  obtain rfl := Option.some.inj h
  show (if x.config.hasFlag flagFec ∧ bytes > 0 then Phase.encoding pos else .sending pos) = _ ∨
    (if x.config.hasFlag flagFec ∧ bytes > 0 then Phase.encoding pos else .sending pos) = _
  split
  · exact Or.inl rfl
  · exact Or.inr rfl

theorem formOrWait_returned (hasync : x.config.hasFlag flagAsync = false)
    (h : formOrWait x = some x') (hp : x'.phase = .returned) :
    x'.atEnd = true ∧ x'.pending = [] := by
  unfold formOrWait at h
  split at h
  · cases hfree : findFreeSlice x with
    | none =>
      rw [hfree] at h
      obtain rfl := Option.some.inj h
      cases hp
    | some pos =>
      rw [hfree] at h
      rcases formSlice_phase h with hform | hform
      · rw [hform] at hp
        cases hp
      · rw [hform] at hp
        cases hp
  · split at h
    · rename_i hend
      obtain rfl := Option.some.inj h
      exact hend
    · rw [hasync] at h
      obtain rfl := Option.some.inj h
      cases hp

theorem timeOut_returned (h : timeOut x = some x') (hp : x'.phase = .returned) :
    x'.db.nrParticipants = 0 := by
  unfold timeOut at h
  split at h
  · obtain rfl := Option.some.inj h
    cases hp
  · dsimp only at h
    split at h
    · split at h
      · rename_i hnone
        obtain rfl := Option.some.inj h
        exact hnone
      · obtain ⟨_, _, rfl⟩ := Option.map_eq_some_iff.mp h
        cases hp
    · obtain ⟨_, _, rfl⟩ := Option.map_eq_some_iff.mp h
      cases hp

/-- The steps that leave the main loop, or come after it. -/
theorem step_returned (hc : Control x) (hasync : x.config.hasFlag flagAsync = false)
    (hs : step x a = some x') (hp : x'.phase = .returned) :
    x.phase = .returned ∧ x'.atEnd = x.atEnd ∧ x'.pending = x.pending ∧ x'.db = x.db ∨
      x'.atEnd = true ∧ x'.pending = [] ∨ x'.db.nrParticipants = 0 := by
  cases step_cases hs with
  | arrive _ _ => exact Or.inl ⟨hp, rfl, rfl, rfl⟩
  | enqueue _ => exact Or.inl ⟨hp, rfl, rfl, rfl⟩
  | @dispatch m rest hphase _ =>
    obtain ⟨-, _, _, _, heq⟩ := handleMessage_frame { x with msgs := rest } m
    rw [heq] at hp
    rw [show x.phase = .returned from hp] at hphase
    cases hphase
  | goto hgoto => cases hgoto <;> cases hp
  | retain _ => cases hp
  | acked _ _ _ _ => cases hp
  | rexmit _ _ => cases hp
  | reqack _ _ => cases hp
  | asyncRound h => exact absurd h hc.not_asyncRound
  | @form pos bytes m data _ _ _ _ _ _ _ =>
    change (if x.config.hasFlag flagFec ∧ bytes > 0 then Phase.encoding pos else .sending pos)
      = .returned at hp
    split at hp
    · cases hp
    · cases hp
  | finish hphase =>
    unfold step at hs
    dsimp only at hs
    unfold advance at hs
    rw [hphase] at hs
    exact Or.inr (Or.inl (formOrWait_returned hasync hs hp))
  | encode _ _ => cases hp
  | transmit _ _ _ => cases hp
  | transmitAsync _ _ _ _ _ => cases hp
  | timeout _ _ => cases hp
  | allDropped hphase _ =>
    unfold step at hs
    dsimp only at hs
    split at hs
    · exact Or.inr (Or.inr (timeOut_returned hs hp))
    · cases hs
  | readerWait _ hw =>
    rcases readerWait_frame hw with rfl | ⟨_, _, rfl⟩
    · exact Or.inl ⟨hp, rfl, rfl, rfl⟩
    · exact Or.inl ⟨hp, rfl, rfl, rfl⟩
  | readEnd _ => exact Or.inl ⟨hp, rfl, rfl, rfl⟩
  | read _ _ => exact Or.inl ⟨hp, rfl, rfl, rfl⟩
  | readerConsumed _ _ => exact Or.inl ⟨hp, rfl, rfl, rfl⟩
  | readerWrite _ _ => exact Or.inl ⟨hp, rfl, rfl, rfl⟩
  | readerProduced _ _ => exact Or.inl ⟨hp, rfl, rfl, rfl⟩

theorem Finished.step (h : Finished x) (hc : Control x) (hq : Queues x F R P D)
    (hasync : x.config.hasFlag flagAsync = false) (hs : SendData.step x a = some x') :
    Finished x' := by
  constructor
  · intro hend
    rcases (step_cases hs).formed_or hc hq with ⟨pos, bytes, m, data, rfl, -, -, -, -⟩ | hu
    · have hzero : bytes = 0 := of_decide_eq_true hend
      show 0 ∈ x.cuts ++ [bytes]
      rw [hzero]
      exact List.mem_append_right _ (List.mem_singleton_self _)
    · rw [hu.cuts]
      rw [hu.atEnd] at hend
      exact h.atEnd hend
  · intro hp
    rcases step_returned hc hasync hs hp with ⟨hp', hend, hpending, hdb⟩ | hdone
    · rw [hend, hpending, hdb]
      exact h.returned hp'
    · exact hdone

end Finished

theorem finished_start {config : NetConfig} {db : ParticipantsDb} {x : Sender}
    (h : Sender.start config db = some x) : Finished x := by
  simp only [Sender.start, Option.bind_eq_bind, Option.bind_eq_some_iff] at h
  obtain ⟨fifo, -, nrFec, -, c₁, -, c₂, -, h⟩ := h
  obtain rfl := Option.some.inj h
  constructor
  · intro hend
    cases hend
  · intro hp
    cases hp

end Udpcast.SendData
