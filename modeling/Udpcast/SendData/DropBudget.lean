import Mathlib.Data.List.DropRight
import Udpcast.SendData.Intact

/-!
# The drop budget

A participant keeps one stamp: the slice that it answered last and the round of the first of these
answers.  At a timeout the rounds of the oldest pending slice are counted from the stamp.
-/

namespace Udpcast.SendData

open Sender

/-- An answer for a slice in flight that the main loop has dispatched, with the round of the slice. -/
structure Answer where
  clNo : ℕ
  sliceNo : ℤ
  round : ℤ
  deriving DecidableEq

/-- The slice that a message is an answer for. -/
def IncomingMsg.answered : IncomingMsg → Option ℤ
  | .ok sliceNo _ => some sliceNo
  | .retransmit sliceNo _ _ _ => some sliceNo
  | .disconnect _ => none

/-- The answer that is dispatched with the message `m`. -/
def answerOf (x : Sender) (m : IncomingMsg) : Option Answer :=
  m.answered.bind fun sliceNo =>
    (findSlice x sliceNo).map fun i => ⟨m.clNo, sliceNo, (x.slices i).rxmitId⟩

/-- An observer that notes the answers. -/
def seeAnswer (x : Sender) (a : Action) (_ : Sender) (answers : List Answer) : List Answer :=
  match a, x.msgs with
  | .dispatch, m :: _ => answers ++ (answerOf x m).toList
  | _, _ => answers

/-- The round of the first answer in a list. -/
def firstOf (answers : List Answer) : ℤ := (answers.head?.map Answer.round).getD 0

/-- The answers of a participant. -/
def answersOf (answers : List Answer) (clNo : ℕ) : List Answer :=
  answers.filter fun e => e.clNo = clNo

/-- The answers for a slice since the last answer for another one. -/
def sinceOther (answers : List Answer) (sliceNo : ℤ) : List Answer :=
  answers.rtakeWhile fun e => e.sliceNo = sliceNo

/-- The round of the first answer of a participant for a slice, and of its first answer for the
slice since its last answer for another one; zero without an answer. -/
def firstRound (answers : List Answer) (clNo : ℕ) (sliceNo : ℤ) : ℤ :=
  firstOf ((answersOf answers clNo).filter fun e => e.sliceNo = sliceNo)
def stampRound (answers : List Answer) (clNo : ℕ) (sliceNo : ℤ) : ℤ :=
  firstOf (sinceOther (answersOf answers clNo) sliceNo)

/-! ### The stamp -/

/-- The stamp that the answers of one participant leave. -/
def stampOf (answers : List Answer) : Option (ℤ × ℤ) :=
  answers.getLast?.map fun e => (e.sliceNo, firstOf (sinceOther answers e.sliceNo))

section Stamp

variable {l : List Answer} {e : Answer} {s : ℤ}

theorem firstOf_concat : firstOf (l ++ [e]) = if l = [] then e.round else firstOf l := by
  cases l with
  | nil => rfl
  | cons a l => rfl

theorem sinceOther_concat_self : sinceOther (l ++ [e]) e.sliceNo = sinceOther l e.sliceNo ++ [e] :=
  List.rtakeWhile_concat_pos _ _ _ (decide_eq_true rfl)

theorem sinceOther_concat_of_ne (h : e.sliceNo ≠ s) : sinceOther (l ++ [e]) s = [] :=
  List.rtakeWhile_concat_neg _ _ _ (by rw [decide_eq_true_eq]; exact h)

/-- `mark_answered` keeps the stamp of the slice, and replaces that of another one. -/
theorem stampOf_concat : stampOf (l ++ [e]) = if (stampOf l).all (fun p => p.1 ≠ e.sliceNo) then
    some (e.sliceNo, e.round) else stampOf l := by
  rw [stampOf, List.getLast?_concat, Option.map_some, sinceOther_concat_self, firstOf_concat]
  cases l using List.reverseRecOn with
  | nil => rfl
  | append_singleton l d =>
    rw [stampOf, List.getLast?_concat, Option.map_some, Option.all_some]
    by_cases hd : d.sliceNo = e.sliceNo
    · have hne : sinceOther (l ++ [d]) e.sliceNo ≠ [] := by
        rw [← hd, sinceOther_concat_self]
        exact List.append_ne_nil_of_right_ne_nil _ (List.cons_ne_nil _ _)
      rw [if_neg hne, if_neg, hd]
      simpa using hd
    · rw [if_pos (sinceOther_concat_of_ne hd), if_pos]
      simpa using hd

theorem stampOf_round : (match stampOf l with
    | some (sliceNo, round) => if sliceNo = s then round else 0
    | none => 0) = firstOf (sinceOther l s) := by
  cases l using List.reverseRecOn with
  | nil => rfl
  | append_singleton l d =>
    rw [stampOf, List.getLast?_concat]
    show (if d.sliceNo = s then firstOf (sinceOther (l ++ [d]) d.sliceNo) else 0) = _
    by_cases hd : d.sliceNo = s
    · rw [if_pos hd, hd]
    · rw [if_neg hd, sinceOther_concat_of_ne hd]
      rfl

end Stamp

/-! ### The table of the participants -/

/-- The table has the stamps of the answers that have been dispatched. -/
def Stamped (db : ParticipantsDb) (answers : List Answer) : Prop :=
  ∀ cl < maxClients, db.firstAnsweredRound cl = stampOf (answersOf answers cl)

section Stamped

variable {x x' : Sender} {a : Action} {answers : List Answer}

theorem Stamped.mark {db : ParticipantsDb} (h : Stamped db answers) (e : Answer) :
    Stamped (db.markAnswered e.clNo (some e.sliceNo) e.round) (answers ++ [e]) := by
  intro cl hcl
  by_cases he : e.clNo = cl
  · subst he
    have hadd : answersOf (answers ++ [e]) e.clNo = answersOf answers e.clNo ++ [e] := by
      rw [answersOf, List.filter_append, List.filter_singleton, decide_eq_true rfl]
      rfl
    rw [hadd, stampOf_concat, ← h e.clNo hcl]
    simp only [ParticipantsDb.markAnswered]
    by_cases hother : (db.firstAnsweredRound e.clNo).all (fun p => p.1 ≠ e.sliceNo) = true
    · rw [if_pos ⟨hcl, hother⟩, if_pos hother]
      exact Function.update_self ..
    · rw [if_neg fun hboth => hother hboth.2, if_neg hother]
  · have hsame : answersOf (answers ++ [e]) cl = answersOf answers cl := by
      rw [answersOf, List.filter_append, List.filter_singleton, decide_eq_false he]
      exact List.append_nil _
    rw [hsame, ← h cl hcl]
    simp only [ParticipantsDb.markAnswered]
    split
    · exact Function.update_of_ne (fun heq => he heq.symm) _ _
    · rfl

theorem firstAnsweredRound_remove (db : ParticipantsDb) (cl : ℕ) :
    (db.removeParticipant cl).firstAnsweredRound = db.firstAnsweredRound := by
  rw [ParticipantsDb.removeParticipant]
  split <;> rfl

/-- A message leaves the stamps of the answers that include it. -/
theorem Stamped.message (h : Stamped x.db answers) (m : IncomingMsg) :
    Stamped (handleMessage x m).db (answers ++ (answerOf x m).toList) := by
  cases m with
  | ok s cl =>
    rw [answerOf]
    simp only [handleMessage, IncomingMsg.answered, Option.bind_some]
    cases findSlice x s with
    | none =>
      simp only [Option.map_none, Option.toList_none, List.append_nil]
      exact h
    | some i => exact h.mark ⟨cl, s, (x.slices i).rxmitId⟩
  | retransmit s cl map rxmit =>
    rw [answerOf]
    simp only [handleMessage, IncomingMsg.answered, Option.bind_some]
    cases findSlice x s with
    | none =>
      simp only [Option.map_none, Option.toList_none, List.append_nil]
      exact h
    | some i => exact h.mark ⟨cl, s, (x.slices i).rxmitId⟩
  | disconnect cl =>
    intro j hj
    rw [answerOf]
    show (x.db.removeParticipant cl).firstAnsweredRound j = stampOf (answersOf (answers ++ []) j)
    rw [firstAnsweredRound_remove, List.append_nil]
    exact h j hj

theorem firstAnsweredRound_afterDrop (x : Sender) (i : Fin 8) :
    (afterDrop x i).firstAnsweredRound = x.db.firstAnsweredRound := by
  have hfold : ∀ (l : List ℕ) (db : ParticipantsDb),
      (l.foldl ParticipantsDb.removeParticipant db).firstAnsweredRound = db.firstAnsweredRound := by
    intro l
    induction l with
    | nil => exact fun _ => rfl
    | cons cl l ih => exact fun db => (ih _).trans (firstAnsweredRound_remove db cl)
  rw [afterDrop]
  split
  · exact hfold _ _
  · rfl

theorem StepTo.firstAnsweredRound (hs : StepTo x a x') (hc : Control x) (ha : a ≠ .dispatch) :
    x'.db.firstAnsweredRound = x.db.firstAnsweredRound := by
  cases hs with
  | dispatch _ _ => exact absurd rfl ha
  | arrive _ _ => rfl
  | enqueue _ => rfl
  | goto _ => rfl
  | retain _ => rfl
  | acked _ _ _ _ => rfl
  | rexmit _ _ => rfl
  | reqack _ _ => rfl
  | asyncRound hasync => exact absurd hasync hc.not_asyncRound
  | form _ _ _ _ _ _ _ => rfl
  | finish _ => rfl
  | encode _ _ => rfl
  | transmit _ _ _ => rfl
  | transmitAsync _ _ _ _ _ => rfl
  | timeout _ _ => exact firstAnsweredRound_afterDrop _ _
  | allDropped _ _ => exact firstAnsweredRound_afterDrop _ _
  | readerWait _ hw =>
    rcases readerWait_frame hw with rfl | ⟨_, _, rfl⟩
    · rfl
    · rfl
  | readEnd _ => rfl
  | read _ _ => rfl
  | readerConsumed _ _ => rfl
  | readerWrite _ _ => rfl
  | readerProduced _ _ => rfl

theorem Stamped.step (h : Stamped x.db answers) (hc : Control x) (hs : step x a = some x') :
    Stamped x'.db (seeAnswer x a x' answers) := by
  by_cases ha : a = .dispatch
  · subst ha
    simp only [SendData.step] at hs
    split at hs
    · rename_i m rest hphase hmsgs
      obtain rfl := Option.some.inj hs
      simp only [seeAnswer, hmsgs]
      exact Stamped.message (x := { x with msgs := rest }) h m
    · cases hs
  · have hsee : seeAnswer x a x' answers = answers := by
      rw [seeAnswer]
      exact fun _ _ heq => absurd heq ha
    rw [hsee]
    intro cl hcl
    rw [(step_cases hs).firstAnsweredRound hc ha]
    exact h cl hcl

end Stamped

/-! ### A timeout -/

theorem ackSlice_db {x x' : Sender} {i : Fin 8} (h : ackSlice x i = some x') : x'.db = x.db := by
  rw [ackSlice] at h
  split at h
  · obtain rfl := Option.some.inj h
    rfl
  · obtain ⟨_, -, h⟩ := Option.bind_eq_some_iff.mp h
    obtain ⟨_, -, h⟩ := Option.bind_eq_some_iff.mp h
    obtain rfl := Option.some.inj h
    rfl

theorem nextRound_db {x x' : Sender} {i : Fin 8} (h : nextRound x i = some x') : x'.db = x.db := by
  obtain ⟨_, -, h⟩ := Option.bind_eq_some_iff.mp h
  rw [sendReqack] at h
  split at h
  · exact (ackSlice_db h).trans rfl
  · obtain rfl := Option.some.inj h
    rfl

theorem timeout_db {x x' : Sender} {i : Fin 8} {rest : List (Fin 8)}
    (hpending : x.pending = i :: rest) (hs : step x .timeout = some x') : x'.db = afterDrop x i := by
  simp only [step] at hs
  split at hs
  · rw [timeOut, hpending] at hs
    simp only at hs
    rw [afterDrop]
    split at hs
    · rename_i hlate
      rw [if_pos hlate]
      generalize (toDrop x i).foldl ParticipantsDb.removeParticipant x.db = db at hs ⊢
      split at hs
      · obtain rfl := Option.some.inj hs
        rfl
      · obtain ⟨x₁, hx₁, rfl⟩ := Option.map_eq_some_iff.mp hs
        exact (nextRound_db hx₁).trans rfl
    · rename_i hearly
      rw [if_neg hearly]
      obtain ⟨x₁, hx₁, rfl⟩ := Option.map_eq_some_iff.mp hs
      exact (nextRound_db hx₁).trans rfl
  · cases hs

theorem Stamped.dropped {x x' : Sender} {answers : List Answer} (h : Stamped x.db answers)
    {i : Fin 8} {rest : List (Fin 8)} (hpending : x.pending = i :: rest)
    (hs : SendData.step x .timeout = some x') {cl : ℕ} (hvalid : x.db.isParticipantValid cl = true)
    (hready : (x.slices i).readySet.getLsbD cl = false) :
    x'.db.isParticipantValid cl = false ↔ (x.slices i).rxmitId > x.config.retriesUntilDrop ∧
      (x.slices i).rxmitId - stampRound answers cl (x.slices i).sliceNo
        > x.config.retriesUntilDrop := by
  have hcl : cl < maxClients := BitVec.lt_of_getLsbD hvalid
  have hbase := stampOf_round (l := answersOf answers cl) (s := (x.slices i).sliceNo)
  rw [← h cl hcl] at hbase
  have hmem : cl ∈ toDrop x i ↔
      (x.slices i).rxmitId - stampRound answers cl (x.slices i).sliceNo
        > x.config.retriesUntilDrop := by
    rw [toDrop, List.mem_filter, List.mem_range, stampRound, ← hbase]
    constructor
    · intro hlate
      simp only [hcl, hvalid, hready, true_and, Bool.true_and, Bool.not_false, decide_eq_true_eq]
        at hlate
      exact hlate
    · intro hlate
      simp only [hcl, hvalid, hready, true_and, Bool.true_and, Bool.not_false, decide_eq_true_eq]
      exact hlate
  rw [timeout_db hpending hs, afterDrop]
  split
  · rename_i hlate
    rw [← hmem, ← Bool.not_eq_true, valid_foldl_remove]
    simp [hlate, hvalid]
  · rename_i hearly
    simp [hearly, hvalid]

theorem start_db {config : NetConfig} {db : ParticipantsDb} {x : Sender}
    (h : Sender.start config db = some x) : x.db = db := by
  simp only [Sender.start, Option.bind_eq_bind, Option.bind_eq_some_iff] at h
  obtain ⟨fifo, -, nrFec, -, c₁, -, c₂, -, h⟩ := h
  obtain rfl := Option.some.inj h
  rfl

/-- At a timeout the drops are those of the budget from the first answers for the oldest slice, if
and only if no participant that is to be judged has answered in an order that puts the two rounds
on different sides of the budget. -/
theorem timeout_drops (config : NetConfig) (db : ParticipantsDb) (x₀ x x' : Sender)
    (answers : List Answer) (i : Fin 8) (rest : List (Fin 8))
    (hstart : Sender.start config db = some x₀) (hfresh : ∀ cl, db.firstAnsweredRound cl = none)
    (hreach : Run.Reach (Run.observe step seeAnswer) (fun _ _ => True) (x₀, []) (x, answers))
    (hpending : x.pending = i :: rest) (hs : step x .timeout = some x') :
    (∀ cl, x.db.isParticipantValid cl = true → (x.slices i).readySet.getLsbD cl = false →
      (x'.db.isParticipantValid cl = false ↔
        (x.slices i).rxmitId > x.config.retriesUntilDrop ∧
        (x.slices i).rxmitId - firstRound answers cl (x.slices i).sliceNo
          > x.config.retriesUntilDrop)) ↔
    ((x.slices i).rxmitId > x.config.retriesUntilDrop → ∀ cl, x.db.isParticipantValid cl = true →
      (x.slices i).readySet.getLsbD cl = false →
      (firstRound answers cl (x.slices i).sliceNo
          < (x.slices i).rxmitId - x.config.retriesUntilDrop ↔
        stampRound answers cl (x.slices i).sliceNo
          < (x.slices i).rxmitId - x.config.retriesUntilDrop)) := by
  have hruns := hreach.invariant (I := fun p => Stamped p.1.db p.2 ∧ Control p.1)
    ⟨fun cl _ => (congrFun (congrArg _ (start_db hstart)) cl).trans (hfresh cl),
      control_start hstart⟩ fun p a p' ⟨hst, hc⟩ _ hobs => by
        obtain ⟨hstep, hsee⟩ := Run.observe_eq_some.mp hobs
        rw [hsee]
        exact ⟨hst.step hc hstep, hc.step (step_cases hstep)⟩
  have hstamped : Stamped x.db answers := hruns.1
  constructor
  · intro hdrops hlate cl hvalid hready
    have hclaim := hdrops cl hvalid hready
    rw [hstamped.dropped hpending hs hvalid hready] at hclaim
    constructor
    · intro hfirst
      have := (hclaim.mpr ⟨hlate, by omega⟩).2
      omega
    · intro hstamp
      have := (hclaim.mp ⟨hlate, by omega⟩).2
      omega
  · intro hsides cl hvalid hready
    rw [hstamped.dropped hpending hs hvalid hready]
    constructor
    · rintro ⟨hlate, hstamp⟩
      have := (hsides hlate cl hvalid hready).mpr (by omega)
      exact ⟨hlate, by omega⟩
    · rintro ⟨hlate, hfirst⟩
      have := (hsides hlate cl hvalid hready).mp (by omega)
      exact ⟨hlate, by omega⟩

/-! ### Two slices in flight -/

/-- A full-duplex transfer with a budget of one round. -/
def oneRound : NetConfig := { fullDuplex with retriesUntilDrop := 1 }

/-- The end marker is in flight behind a slice of one byte, and the main loop waits. -/
def sendBoth : List Action := sendOne ++ List.replicate 20 .advance

/-- A timeout, and the way back to the wait. -/
def timeoutRound : List Action := .timeout :: List.replicate 11 .advance

/-- Participant `cl` asks for slice `s` again while the main loop waits. -/
def askAgain (s : ℤ) (cl : ℕ) : List Action :=
  message (.retransmit s cl 0 0) ++ [.wake, .dispatch] ++ List.replicate 18 .advance

/-- Participant 1 answers in round 1, participant 0 does not answer: it is dropped in round 2. -/
theorem timeout_drops_silent : ∃ x x' : Sender, step x .timeout = some x' ∧
    (x.slices 0).rxmitId = 2 ∧ x'.db.isParticipantValid 0 = false ∧
    x'.db.isParticipantValid 1 = true := by
  have hexec : ((Sender.start oneRound twoParticipants).bind fun x =>
      (Run.exec (Run.observe step seeAnswer) (fun _ _ => True) (x, [])
        (sendBoth ++ timeoutRound ++ askAgain 0 1 ++ timeoutRound)).bind fun p =>
          (step p.1 .timeout).map fun x' => (x, p, x')).map
      (fun q => decide (q.2.1.2 = [⟨1, 0, 1⟩] ∧ q.2.1.1.pending = [0, 1] ∧
        (q.2.1.1.slices 0).rxmitId = 2 ∧ (q.2.1.1.slices 0).sliceNo = 0 ∧
        q.2.1.1.config.retriesUntilDrop = 1 ∧ q.2.1.1.db.isParticipantValid 0 = true ∧
        (q.2.1.1.slices 0).readySet.getLsbD 0 = false ∧ q.2.1.1.db.isParticipantValid 1 = true ∧
        (q.2.1.1.slices 0).readySet.getLsbD 1 = false)) = some true := by decide +kernel
  obtain ⟨q, hq, hseen⟩ := Option.map_eq_some_iff.mp hexec
  obtain ⟨x₀, hstart, hq⟩ := Option.bind_eq_some_iff.mp hq
  obtain ⟨⟨x, answers⟩, hexec, hq⟩ := Option.bind_eq_some_iff.mp hq
  obtain ⟨x', hs, rfl⟩ := Option.map_eq_some_iff.mp hq
  obtain ⟨hanswers, hpending, hround, hno, hbudget, hvalid₀, hready₀, hvalid₁, hready₁⟩ :=
    of_decide_eq_true hseen
  simp only at hanswers hpending hround hno hbudget hvalid₀ hready₀ hvalid₁ hready₁ hs
  subst hanswers
  have hdrops := (timeout_drops oneRound twoParticipants x₀ x x' [⟨1, 0, 1⟩] 0 [1] hstart
    (fun _ => rfl) (Run.reach_of_exec hexec) hpending hs).mpr fun _ cl _ _ => by
      rw [hno]
      by_cases hcl : cl = 1
      · subst hcl
        exact Iff.rfl
      · have hnone : answersOf [⟨1, 0, 1⟩] cl = [] := by
          rw [answersOf, List.filter_singleton, decide_eq_false (fun h => hcl h.symm)]
          rfl
        rw [firstRound, stampRound, hnone]
        exact Iff.rfl
  refine ⟨x, x', hs, hround, (hdrops 0 hvalid₀ hready₀).mpr ?_, ?_⟩
  · rw [hround, hbudget, hno]
    decide
  · rw [← Bool.not_eq_false, hdrops 1 hvalid₁ hready₁, hround, hbudget, hno]
    decide

/-- Participant 1 asks for slice 0 in round 0, for slice 1, and again for slice 0 in round 2: its
rounds count from the last of these, and it is not dropped. -/
theorem timeout_drops_late : ∃ x₀ x x' answers, Sender.start oneRound twoParticipants = some x₀ ∧
    Run.Reach (Run.observe step seeAnswer) (fun _ _ => True) (x₀, []) (x, answers) ∧
    x.pending = [0, 1] ∧ step x .timeout = some x' ∧ x.db.isParticipantValid 1 = true ∧
    (x.slices 0).readySet.getLsbD 1 = false ∧
    ¬ (x'.db.isParticipantValid 1 = false ↔
      (x.slices 0).rxmitId > x.config.retriesUntilDrop ∧
      (x.slices 0).rxmitId - firstRound answers 1 (x.slices 0).sliceNo
        > x.config.retriesUntilDrop) := by
  have hexec : ((Sender.start oneRound twoParticipants).bind fun x =>
      (Run.exec (Run.observe step seeAnswer) (fun _ _ => True) (x, [])
        (sendBoth ++ askAgain 0 1 ++ askAgain 1 1 ++ timeoutRound ++ timeoutRound ++
          askAgain 0 1)).bind fun p => (step p.1 .timeout).map fun x' => (x, p, x')).map
      (fun q => decide (q.2.1.1.pending = [0, 1] ∧ q.2.1.1.db.isParticipantValid 1 = true ∧
        (q.2.1.1.slices 0).readySet.getLsbD 1 = false ∧ q.2.2.db.isParticipantValid 1 = true ∧
        (q.2.1.1.slices 0).rxmitId = 2 ∧ q.2.1.1.config.retriesUntilDrop = 1 ∧
        firstRound q.2.1.2 1 (q.2.1.1.slices 0).sliceNo = 0)) = some true := by decide +kernel
  obtain ⟨q, hq, hseen⟩ := Option.map_eq_some_iff.mp hexec
  obtain ⟨x₀, hstart, hq⟩ := Option.bind_eq_some_iff.mp hq
  obtain ⟨⟨x, answers⟩, hexec, hq⟩ := Option.bind_eq_some_iff.mp hq
  obtain ⟨x', hs, rfl⟩ := Option.map_eq_some_iff.mp hq
  obtain ⟨hpending, hvalid, hready, hkept, hround, hbudget, hfirst⟩ := of_decide_eq_true hseen
  refine ⟨x₀, x, x', answers, hstart, Run.reach_of_exec hexec, hpending, hs, hvalid, hready, ?_⟩
  simp only at hkept hround hbudget hfirst
  rw [hkept, hround, hbudget, hfirst]
  decide

end Udpcast.SendData
