import Udpcast.SendData.DropBudget
import Udpcast.SendData.HalfDuplex
import Udpcast.SendData.Returns
import Udpcast.SendData.RoundNumbers

/-!
# The slices at a wait

When the main loop waits, each pending slice lacks an OK, and the answers to it are stamped with
rounds of it that have begun.
-/

namespace Udpcast.SendData

open Sender

/-! ### The rounds of a slice -/

/-- A slice stays in flight in this round or a later one, with the participants that are ready. -/
def Stays (s s' : Slice) : Prop :=
  s'.inFlight → s.inFlight ∧ s'.sliceNo = s.sliceNo ∧ s'.readySet = s.readySet ∧
    s.rxmitId ≤ s'.rxmitId

structure Opens (x : Sender) (pos : Fin 8) (x' : Sender) : Prop where
  phase : x.phase = .forming
  room : x.pending.length < x.config.maxInFlight
  free : (x.slices pos).state = .free
  formed : (x'.slices pos).inFlight
  sliceNo : (x'.slices pos).sliceNo = x.sliceNo
  readySet : (x'.slices pos).readySet = 0
  rxmitId : (x'.slices pos).rxmitId = 0
  next : x'.sliceNo = x.sliceNo + 1
  cuts : x'.cuts.length = x.cuts.length + 1
  others : ∀ j, j ≠ pos → x'.slices j = x.slices j
  db : x'.db = x.db
  config : x'.config = x.config

/-- What a step does to the slots when no message is dispatched. -/
inductive Course (x x' : Sender) : Prop
  | kept : (∀ i, Stays (x.slices i) (x'.slices i)) → x'.sliceNo = x.sliceNo → x'.cuts = x.cuts →
      Course x x'
  | opens {pos : Fin 8} : Opens x pos x' → Course x x'

section Course

variable {x x' : Sender} {a : Action} {i : Fin 8}

theorem Stays.refl (s : Slice) : Stays s s := fun h => ⟨h, rfl, rfl, le_rfl⟩

theorem stays_modify {f : Slice → Slice} (h : Stays (x.slices i) (f (x.slices i))) (j : Fin 8) :
    Stays (x.slices j) ((x.modify i f).slices j) := by
  by_cases hji : j = i
  · subst hji
    rw [modify_slices_self]
    exact h
  · rw [modify_slices_of_ne _ _ _ hji]
    exact Stays.refl _

theorem reqack_rxmitId {rest : List (Fin 8)} {nr : ℕ} {fr : Bool}
    (hphase : x.phase = .reqacking (i :: rest) nr fr)
    (hg : (x.slices i).state ≠ .acked ∧ (x.slices i).nrAnswered ≥ nr)
    (hs : step x .advance = some x') : (x'.slices i).rxmitId = (x.slices i).rxmitId + 1 := by
  have hs' : reqackPending x i rest nr fr = some x' := by
    change advance x = some x' at hs
    rwa [advance, hphase] at hs
  rw [reqackPending, if_pos hg] at hs'
  obtain ⟨y, hy, rfl⟩ := Option.map_eq_some_iff.mp hs'
  exact (rxmitId_freeAcked y i i).trans (rxmitId_nextRound hy).1

theorem timeout_rxmitId {rest : List (Fin 8)} (hpending : x.pending = i :: rest)
    (hs : step x .timeout = some x') (hp : x'.phase ≠ .returned) :
    (x'.slices i).rxmitId = (x.slices i).rxmitId + 1 := by
  simp only [step] at hs
  split at hs
  · rw [timeOut, hpending] at hs
    simp only at hs
    split at hs
    · split at hs
      · obtain rfl := Option.some.inj hs
        exact absurd rfl hp
      · obtain ⟨y, hy, rfl⟩ := Option.map_eq_some_iff.mp hs
        have hround := (rxmitId_nextRound hy).1
        exact hround
    · obtain ⟨y, hy, rfl⟩ := Option.map_eq_some_iff.mp hs
      have hround := (rxmitId_nextRound hy).1
      exact hround
  · cases hs

theorem stays_requested {n : ℤ} (h : (x.slices i).rxmitId ≤ n) (j : Fin 8) :
    Stays (x.slices j) ((requested (bumped x i n) i).slices j) := by
  by_cases hji : j = i
  · subst hji
    rw [requested_slices_self, bumped_slices_self]
    exact fun hin => ⟨hin, rfl, rfl, h⟩
  · rw [requested_slices_of_ne _ hji, bumped_slices_of_ne _ _ hji]
    exact Stays.refl _

theorem stays_released {config : NetConfig} {q : Produconsum} (j : Fin 8) :
    Stays (x.slices j) ((released x i config q).slices j) := by
  by_cases hji : j = i
  · subst hji
    rw [released_slices_self]
    intro h
    simp [Slice.inFlight] at h
  · rw [released_slices_of_ne _ _ _ hji]
    exact Stays.refl _

theorem step_course (hc : Control x) (hs : step x a = some x') (ha : a ≠ .dispatch) :
    Course x x' := by
  cases step_cases hs with
  | dispatch _ _ => exact absurd rfl ha
  | arrive _ _ => exact Course.kept (fun _ => Stays.refl _) rfl rfl
  | enqueue _ => exact Course.kept (fun _ => Stays.refl _) rfl rfl
  | goto _ => exact Course.kept (fun _ => Stays.refl _) rfl rfl
  | retain _ => exact Course.kept (fun _ => Stays.refl _) rfl rfl
  | acked _ _ _ _ => exact Course.kept (fun j => stays_released j) rfl rfl
  | @rexmit i rest fl map good ds _ _ =>
    exact Course.kept (fun j => stays_modify (x := x) (i := i) (f := fun s => s.rexmitted map good)
      (fun h => ⟨h, rfl, rfl, le_rfl⟩) j) rfl rfl
  | @reqack i rest nr fr rxmitId hphase hg =>
    have hround := reqack_rxmitId hphase hg hs
    change ((requested (bumped x i rxmitId) i).slices i).rxmitId = _ at hround
    rw [requested_slices_self, bumped_slices_self] at hround
    change rxmitId = _ at hround
    exact Course.kept (fun j => stays_requested (by omega) j) rfl rfl
  | asyncRound h => exact absurd h hc.not_asyncRound
  | @form pos bytes m data hphase hroom _ hfree _ _ _ =>
    refine Course.opens (⟨hphase, hroom, hfree, ?_, ?_, ?_, ?_, rfl, List.length_append,
      fun j hj => formed_slices_of_ne x bytes data hj, rfl, rfl⟩ : Opens x pos _)
    · rw [formed_slices_self]
      exact Or.inl rfl
    · rw [formed_slices_self]
      rfl
    · rw [formed_slices_self]
      rfl
    · rw [formed_slices_self]
      rfl
  | finish _ => exact Course.kept (fun _ => Stays.refl _) rfl rfl
  | @encode i fecData _ _ =>
    exact Course.kept (fun j => stays_modify (x := x) (i := i)
      (f := fun s => { s with fecData := fecData }) (fun h => ⟨h, rfl, rfl, le_rfl⟩) j) rfl rfl
  | @transmit i ds hphase _ _ =>
    have hnew := hc.fresh i (Or.inr hphase)
    refine Course.kept (fun j => ?_) rfl rfl
    show Stays _ ((requested (transmitted x i ds) i).slices j)
    by_cases hji : j = i
    · subst hji
      rw [requested_slices_self, transmitted_slices_self]
      exact fun _ => ⟨Or.inl hnew, rfl, rfl, le_rfl⟩
    · rw [requested_slices_of_ne _ hji, transmitted_slices_of_ne _ _ hji]
      exact Stays.refl _
  | @transmitAsync i ds config q _ _ _ _ _ =>
    exact Course.kept (fun j => stays_released (x := x.send ds) (i := i) j) rfl rfl
  | @timeout i rest rxmitId hphase hpending =>
    have hround := timeout_rxmitId hpending hs (by simp)
    change ((requested (bumped { x with db := afterDrop x i } i rxmitId) i).slices i).rxmitId = _
      at hround
    rw [requested_slices_self, bumped_slices_self] at hround
    change rxmitId = _ at hround
    exact Course.kept (fun j => stays_requested (x := { x with db := afterDrop x i }) (i := i)
      (n := rxmitId) (by show (x.slices i).rxmitId ≤ _; omega) j) rfl rfl
  | allDropped _ _ => exact Course.kept (fun _ => Stays.refl _) rfl rfl
  | readerWait _ hw =>
    rcases readerWait_frame hw with rfl | ⟨_, _, rfl⟩
    · exact Course.kept (fun _ => Stays.refl _) rfl rfl
    · exact Course.kept (fun _ => Stays.refl _) rfl rfl
  | readEnd _ => exact Course.kept (fun _ => Stays.refl _) rfl rfl
  | read _ _ => exact Course.kept (fun _ => Stays.refl _) rfl rfl
  | readerConsumed _ _ => exact Course.kept (fun _ => Stays.refl _) rfl rfl
  | readerWrite _ _ => exact Course.kept (fun _ => Stays.refl _) rfl rfl
  | readerProduced _ _ => exact Course.kept (fun _ => Stays.refl _) rfl rfl

end Course

/-! ### The stamps of the answers -/

/-- An answer has been stamped with a round of its slice that has begun. -/
structure Stamps (x : Sender) : Prop where
  slot : ∀ i, (x.slices i).inFlight → (x.slices i).sliceNo < x.sliceNo ∧ 0 ≤ (x.slices i).rxmitId
  distinct : ∀ i j, (x.slices i).inFlight → (x.slices j).inFlight →
    (x.slices i).sliceNo = (x.slices j).sliceNo → i = j
  past : ∀ cl s r, x.db.firstAnsweredRound cl = some (s, r) → s < x.sliceNo
  round : ∀ cl r i, (x.slices i).inFlight →
    x.db.firstAnsweredRound cl = some ((x.slices i).sliceNo, r) → r ≤ (x.slices i).rxmitId

section Stamps

variable {x x' : Sender} {a : Action} {i : Fin 8}

theorem Stamps.course (h : Stamps x) (hcourse : Course x x')
    (hdb : x'.db.firstAnsweredRound = x.db.firstAnsweredRound) : Stamps x' := by
  cases hcourse with
  | kept hs hno _ =>
    refine ⟨fun i hi => ?_, fun i j hi hj heq => ?_, fun cl s r hr => ?_, fun cl r i hi hr => ?_⟩
    · obtain ⟨hi', hsame, -, hle⟩ := hs i hi
      have hslot := h.slot i hi'
      rw [hsame, hno]
      exact ⟨hslot.1, hslot.2.trans hle⟩
    · obtain ⟨hi', hsame, -, -⟩ := hs i hi
      obtain ⟨hj', hsame', -, -⟩ := hs j hj
      rw [hsame, hsame'] at heq
      exact h.distinct i j hi' hj' heq
    · rw [hdb] at hr
      rw [hno]
      exact h.past cl s r hr
    · obtain ⟨hi', hsame, -, hle⟩ := hs i hi
      rw [hdb, hsame] at hr
      exact (h.round cl r i hi' hr).trans hle
  | @opens pos ho =>
    have hold : ∀ j, j ≠ pos → (x'.slices j).inFlight → (x.slices j).inFlight ∧
        (x'.slices j).sliceNo < x.sliceNo := fun j hj hin => by
      rw [ho.others j hj] at hin ⊢
      exact ⟨hin, (h.slot j hin).1⟩
    refine ⟨fun i hi => ?_, fun i j hi hj heq => ?_, fun cl s r hr => ?_, fun cl r i hi hr => ?_⟩
    · by_cases hip : i = pos
      · rw [hip, ho.sliceNo, ho.rxmitId, ho.next]
        exact ⟨by omega, le_rfl⟩
      · have hslot := h.slot i (hold i hip hi).1
        rw [ho.others i hip, ho.next]
        exact ⟨by omega, hslot.2⟩
    · by_cases hip : i = pos
      · by_cases hjp : j = pos
        · rw [hip, hjp]
        · have hlt := (hold j hjp hj).2
          rw [hip, ho.sliceNo] at heq
          omega
      · by_cases hjp : j = pos
        · have hlt := (hold i hip hi).2
          rw [hjp, ho.sliceNo] at heq
          omega
        · rw [ho.others i hip, ho.others j hjp] at heq
          exact h.distinct i j (hold i hip hi).1 (hold j hjp hj).1 heq
    · rw [hdb] at hr
      have hlt := h.past cl s r hr
      rw [ho.next]
      omega
    · rw [hdb] at hr
      by_cases hip : i = pos
      · rw [hip, ho.sliceNo] at hr
        exact absurd (h.past cl _ r hr) (lt_irrefl _)
      · rw [ho.others i hip] at hr ⊢
        exact h.round cl r i (hold i hip hi).1 hr

theorem markAnswered_stamp {db : ParticipantsDb} {cl k : ℕ} {no s r round : ℤ}
    (h : (db.markAnswered k (some no) round).firstAnsweredRound cl = some (s, r)) :
    db.firstAnsweredRound cl = some (s, r) ∨ s = no ∧ r = round := by
  simp only [ParticipantsDb.markAnswered] at h
  split at h
  · by_cases hcl : cl = k
    · change Function.update db.firstAnsweredRound k (some (no, round)) cl = some (s, r) at h
      rw [hcl, Function.update_self] at h
      right
      obtain ⟨rfl, rfl⟩ := Prod.mk.inj (Option.some.inj h)
      exact ⟨rfl, rfl⟩
    · change Function.update db.firstAnsweredRound k (some (no, round)) cl = some (s, r) at h
      rw [Function.update_of_ne hcl] at h
      exact Or.inl h
  · exact Or.inl h

theorem stamp_handleMessage {m : IncomingMsg} {cl : ℕ} {s r : ℤ}
    (h : (handleMessage x m).db.firstAnsweredRound cl = some (s, r)) :
    x.db.firstAnsweredRound cl = some (s, r) ∨
      ∃ i, findSlice x s = some i ∧ r = (x.slices i).rxmitId := by
  cases m with
  | ok no k =>
    simp only [handleMessage] at h
    cases hfind : findSlice x no with
    | none =>
      rw [hfind] at h
      exact Or.inl h
    | some i =>
      rw [hfind] at h
      rcases markAnswered_stamp h with h | ⟨rfl, rfl⟩
      · exact Or.inl h
      · exact Or.inr ⟨i, hfind, rfl⟩
  | retransmit no k map rxmit =>
    simp only [handleMessage] at h
    cases hfind : findSlice x no with
    | none =>
      rw [hfind] at h
      exact Or.inl h
    | some i =>
      rw [hfind] at h
      rcases markAnswered_stamp h with h | ⟨rfl, rfl⟩
      · exact Or.inl h
      · exact Or.inr ⟨i, hfind, rfl⟩
  | disconnect k =>
    left
    change (x.db.removeParticipant k).firstAnsweredRound cl = some (s, r) at h
    rwa [firstAnsweredRound_remove] at h

theorem Stamps.message (h : Stamps x) (hc : Control x) (m : IncomingMsg) :
    Stamps (handleMessage x m) := by
  obtain ⟨hsame, slices, db, trace, heq⟩ := handleMessage_frame x m
  have hno : (handleMessage x m).sliceNo = x.sliceNo := by rw [heq]
  have hfound : ∀ s i, findSlice x s = some i →
      (x.slices i).inFlight ∧ (x.slices i).sliceNo = s := fun s i hfind =>
    ⟨(hc.inFlight_iff i).mpr (findSlice_some hfind).1, (findSlice_some hfind).2⟩
  refine ⟨fun i hi => ?_, fun i j hi hj heq => ?_, fun cl s r hr => ?_, fun cl r i hi hr => ?_⟩
  · rw [(hsame i).sliceNo, rxmitId_handleMessage, hno]
    exact h.slot i ((hsame i).inFlight_iff.mp hi)
  · rw [(hsame i).sliceNo, (hsame j).sliceNo] at heq
    exact h.distinct i j ((hsame i).inFlight_iff.mp hi) ((hsame j).inFlight_iff.mp hj) heq
  · rw [hno]
    rcases stamp_handleMessage hr with hr | ⟨i, hfind, -⟩
    · exact h.past cl s r hr
    · obtain ⟨hi, rfl⟩ := hfound s i hfind
      exact (h.slot i hi).1
  · have hi' := (hsame i).inFlight_iff.mp hi
    rw [(hsame i).sliceNo] at hr
    rw [rxmitId_handleMessage]
    rcases stamp_handleMessage hr with hr | ⟨j, hfind, rfl⟩
    · exact h.round cl r i hi' hr
    · obtain ⟨hj, hsno⟩ := hfound _ j hfind
      rw [h.distinct j i hj hi' hsno]

theorem Stamps.step (h : Stamps x) (hc : Control x) (hs : step x a = some x') : Stamps x' := by
  by_cases ha : a = .dispatch
  · subst ha
    simp only [SendData.step] at hs
    split at hs
    · rename_i m rest hphase hmsgs
      obtain rfl := Option.some.inj hs
      exact Stamps.message (x := { x with msgs := rest }) ⟨h.slot, h.distinct, h.past, h.round⟩
        (hc.beside rfl rfl rfl rfl rfl) m
    · cases hs
  · exact h.course (step_course hc hs ha) ((step_cases hs).firstAnsweredRound hc ha)

end Stamps

theorem stamps_start {config : NetConfig} {db : ParticipantsDb} {x : Sender}
    (hfresh : ∀ cl, db.firstAnsweredRound cl = none) (h : Sender.start config db = some x) :
    Stamps x := by
  have hdb := start_db h
  simp only [Sender.start, Option.bind_eq_bind, Option.bind_eq_some_iff] at h
  obtain ⟨fifo, -, nrFec, -, c₁, -, c₂, -, h⟩ := h
  obtain rfl := Option.some.inj h
  have hfree : ∀ i, ¬ ((fun _ => Slice.new (List.replicate nrFec
      (List.replicate config.blockSize 0)) : Fin 8 → Slice) i).inFlight := fun i => by
    simp [Slice.inFlight, Slice.new]
  refine ⟨fun i hi => absurd hi (hfree i), fun i _ hi => absurd hi (hfree i), fun cl s r hr => ?_,
    fun cl r i hi => absurd hi (hfree i)⟩
  rw [hdb, hfresh] at hr
  cases hr

/-! ### The slices at the wait -/

/-- Past the first loop no slice that all participants are ready for is left. -/
def SettledAt (x : Sender) : Phase → Prop
  | .acking rest nr _ => ∀ i, (x.slices i).state = .xmitted → i ∉ rest → (x.slices i).nrReady < nr
  | .rexmitting _ _ | .reqacking _ _ _ | .forming =>
    ∀ i, (x.slices i).state = .xmitted → (x.slices i).nrReady < x.db.nrParticipants
  | .waiting => (∀ i, (x.slices i).state = .xmitted → (x.slices i).nrReady < x.db.nrParticipants) ∧
      x.pending ≠ []
  | _ => True

section Settled

variable {x x' : Sender} {a : Action} {i : Fin 8}

theorem SettledAt.congr {p : Phase} (h : SettledAt x p)
    (hs : ∀ i, (x'.slices i).state = (x.slices i).state ∧ (x'.slices i).nrReady = (x.slices i).nrReady)
    (hdb : x'.db = x.db) (hpending : x'.pending = x.pending) : SettledAt x' p := by
  have hall : (∀ i, (x.slices i).state = .xmitted → (x.slices i).nrReady < x.db.nrParticipants) →
      ∀ i, (x'.slices i).state = .xmitted → (x'.slices i).nrReady < x'.db.nrParticipants :=
    fun hx i hi => by
      rw [(hs i).2, hdb]
      exact hx i ((hs i).1 ▸ hi)
  cases p with
  | acking rest nr fr =>
    intro i hi hnot
    rw [(hs i).2]
    exact h i ((hs i).1 ▸ hi) hnot
  | rexmitting rest fl => exact hall h
  | reqacking rest nr fr => exact hall h
  | forming => exact hall h
  | waiting => exact ⟨hall h.1, by rw [hpending]; exact h.2⟩
  | top => trivial
  | encoding i => trivial
  | sending i => trivial
  | returned => trivial

/-- The first loop leaves a slice behind only if a participant is not ready. -/
theorem notReady_lt {rest : List (Fin 8)} {nr : ℕ} {fr : Bool} (hc : Control x)
    (hphase : x.phase = .acking (i :: rest) nr fr)
    (hs : step x .advance = some { x with phase := .acking rest nr fr }) :
    (x.slices i).nrReady < nr := by
  have hcur := hc.current (Or.inl ⟨nr, fr, hphase⟩)
  have hs' : ackPending x i rest nr fr = some { x with phase := .acking rest nr fr } := by
    change advance x = _ at hs
    rwa [advance, hphase] at hs
  rw [ackPending] at hs'
  split at hs'
  · rename_i hready
    obtain ⟨y, hack, heq⟩ := Option.map_eq_some_iff.mp hs'
    obtain ⟨-, config, q, -, -, hfree⟩ := freeSlice_ackSlice hready.1 hack
    rw [hfree] at heq
    have hslices := congrArg Sender.slices heq
    change (released x i config q).slices = x.slices at hslices
    have hself := released_slices_self x i config q
    rw [hslices] at hself
    rw [hself] at hcur
    cases hcur
  · rename_i hready
    by_contra hge
    exact hready ⟨by rw [hcur]; decide, Nat.le_of_not_lt hge⟩

theorem wait_pending (hphase : x.phase = .forming)
    (hs : step x .advance = some { x with phase := .waiting }) : x.pending ≠ [] := by
  have hs' : formOrWait x = some { x with phase := .waiting } := by
    change advance x = _ at hs
    rwa [advance, hphase] at hs
  have hone : 0 < x.config.maxInFlight := by
    rw [NetConfig.maxInFlight]
    split
    · decide
    · decide
  intro hnil
  rw [formOrWait, hnil] at hs'
  split at hs'
  · cases hfree : findFreeSlice x with
    | none =>
      rw [hfree] at hs'
      cases congrArg Sender.phase (Option.some.inj hs')
    | some pos =>
      rw [hfree] at hs'
      rcases formSlice_phase hs' with hform | hform
      · cases hform
      · cases hform
  · rename_i hfull
    have hend : x.atEnd = true := by
      by_contra hopen
      exact hfull ⟨hone, Bool.not_eq_true _ ▸ hopen⟩
    rw [if_pos ⟨hend, rfl⟩] at hs'
    cases congrArg Sender.phase (Option.some.inj hs')

theorem Goto.settledAt {p : Phase} (hg : Goto x a p) (hc : Control x) (h : SettledAt x x.phase)
    (hs : step x a = some { x with phase := p }) : SettledAt x p := by
  cases hg with
  | top _ _ => exact fun i hi hnot => absurd (hc.xmitted i hi) hnot
  | @notReady i rest nr fr hp =>
    rw [hp] at h
    intro j hj hnot
    by_cases hji : j = i
    · rw [hji]
      exact notReady_lt hc hp hs
    · exact h j hj fun hmem => (List.mem_cons.mp hmem).elim hji hnot
  | @acked nr hp =>
    have hat := hc.pendingAt
    rw [hp] at h hat
    intro i hi
    rw [← hat.2]
    exact h i hi List.not_mem_nil
  | complete hp _ =>
    rw [hp] at h
    exact h
  | rexmitted _ => trivial
  | rexmittedNone hp =>
    rw [hp] at h
    exact h
  | notAnswered hp _ =>
    rw [hp] at h
    exact h
  | reqacked hp =>
    rw [hp] at h
    exact h
  | noSlot _ => trivial
  | wait hp =>
    rw [hp] at h
    exact ⟨h, wait_pending hp hs⟩
  | woken _ _ => trivial

theorem SettledAt.step (h : SettledAt x x.phase) (hc : Control x) (hs : step x a = some x') :
    SettledAt x' x'.phase := by
  cases step_cases hs with
  | arrive _ _ => exact h.congr (fun _ => ⟨rfl, rfl⟩) rfl rfl
  | enqueue _ => exact h.congr (fun _ => ⟨rfl, rfl⟩) rfl rfl
  | @dispatch m rest hphase _ =>
    obtain ⟨-, slices, db, trace, heq⟩ := handleMessage_frame { x with msgs := rest } m
    rw [show (handleMessage { x with msgs := rest } m).phase = .top by rw [heq]; exact hphase]
    trivial
  | @goto _ p hg =>
    show SettledAt { x with phase := p } p
    exact (hg.settledAt hc h hs).congr (fun _ => ⟨rfl, rfl⟩) rfl rfl
  | retain _ => trivial
  | @acked i rest nr fr config q hp _ _ _ =>
    rw [hp] at h
    intro j hj hnot
    change ((released x i config q).slices j).state = .xmitted at hj
    show ((released x i config q).slices j).nrReady < nr
    by_cases hji : j = i
    · rw [hji, released_slices_self] at hj
      cases hj
    · rw [released_slices_of_ne _ _ _ hji] at hj ⊢
      exact h j hj fun hmem => (List.mem_cons.mp hmem).elim hji hnot
  | @rexmit i rest fl map good ds hp _ =>
    rw [hp] at h
    have hsame := fun j => sameVotes_modify (x := x) (f := fun s => s.rexmitted map good) (i := i)
      ⟨id, rfl, rfl, rfl⟩ j
    have hstate := fun j => sameSlice_modify (x := x) (f := fun s => s.rexmitted map good) (i := i)
      ⟨rfl, rfl, rfl, rfl, rfl⟩ j
    exact SettledAt.congr (p := .rexmitting rest true) h
      (fun j => ⟨(hstate j).state, (hsame j).nrReady⟩) rfl rfl
  | @reqack i rest nr fr rxmitId hp _ =>
    rw [hp] at h
    exact SettledAt.congr (p := .reqacking rest nr fr) h (fun j =>
      ⟨(sameSlice_requested x i j rxmitId).state, (sameVotes_requested x i j rxmitId).nrReady⟩) rfl rfl
  | asyncRound h => exact absurd h hc.not_asyncRound
  | @form pos bytes m data _ _ _ _ _ _ _ =>
    show SettledAt _ (if x.config.hasFlag flagFec ∧ bytes > 0 then Phase.encoding pos else .sending pos)
    split
    · trivial
    · trivial
  | finish _ => trivial
  | encode _ _ => trivial
  | transmit _ _ _ => trivial
  | transmitAsync _ _ _ _ _ => trivial
  | timeout _ _ => trivial
  | allDropped _ _ => trivial
  | readerWait _ hw =>
    rcases readerWait_frame hw with rfl | ⟨_, _, rfl⟩
    · exact h.congr (fun _ => ⟨rfl, rfl⟩) rfl rfl
    · exact h.congr (fun _ => ⟨rfl, rfl⟩) rfl rfl
  | readEnd _ => exact h.congr (fun _ => ⟨rfl, rfl⟩) rfl rfl
  | read _ _ => exact h.congr (fun _ => ⟨rfl, rfl⟩) rfl rfl
  | readerConsumed _ _ => exact h.congr (fun _ => ⟨rfl, rfl⟩) rfl rfl
  | readerWrite _ _ => exact h.congr (fun _ => ⟨rfl, rfl⟩) rfl rfl
  | readerProduced _ _ => exact h.congr (fun _ => ⟨rfl, rfl⟩) rfl rfl

end Settled

/-! ### The number of slices in flight -/

/-- The slice that is being sent for the first time is not pending yet. -/
def Phase.forms : Phase → ℕ
  | .encoding _ | .sending _ => 1
  | _ => 0

/-- The slots that a loop over the pending slices has not come to. -/
def Phase.rest : Phase → List (Fin 8)
  | .acking rest _ _ | .rexmitting rest _ | .reqacking rest _ _ => rest
  | _ => []

/-- There are at most `max_in_flight` slices, and the loops go over the pending ones. -/
structure Room (x : Sender) : Prop where
  pending : x.pending.length + x.phase.forms ≤ x.config.maxInFlight
  rest : x.phase.rest.length ≤ x.pending.length

section Room

variable {x x' : Sender} {a : Action}

theorem Goto.forms {p : Phase} (hg : Goto x a p) : p.forms = 0 := by
  cases hg <;> rfl

theorem Goto.rest {p : Phase} (hg : Goto x a p) (h : x.phase.rest.length ≤ x.pending.length) :
    p.rest.length ≤ x.pending.length := by
  cases hg with
  | top _ _ => exact le_rfl
  | notReady hp =>
    rw [hp] at h
    exact Nat.le_of_succ_le h
  | acked _ => exact le_rfl
  | complete hp _ =>
    rw [hp] at h
    exact Nat.le_of_succ_le h
  | rexmitted _ => exact Nat.zero_le _
  | rexmittedNone _ => exact le_rfl
  | notAnswered hp _ =>
    rw [hp] at h
    exact Nat.le_of_succ_le h
  | reqacked _ => exact Nat.zero_le _
  | noSlot _ => exact Nat.zero_le _
  | wait _ => exact Nat.zero_le _
  | woken _ _ => exact Nat.zero_le _

theorem Room.move (h : Room x) (hpending : x'.pending = x.pending)
    (hmax : x'.config.maxInFlight = x.config.maxInFlight) (hforms : x'.phase.forms = 0)
    (hrest : x'.phase.rest.length ≤ x.pending.length) : Room x' := by
  have hle := h.pending
  exact ⟨by rw [hpending, hmax, hforms]; omega, by rw [hpending]; exact hrest⟩

theorem Room.beside (h : Room x) (hpending : x'.pending = x.pending) (hconfig : x'.config = x.config)
    (hphase : x'.phase = x.phase) : Room x' :=
  ⟨by rw [hpending, hphase, hconfig]; exact h.pending, by rw [hpending, hphase]; exact h.rest⟩

theorem Room.step (h : Room x) (hc : Control x) (hs : StepTo x a x') : Room x' := by
  have hmax := maxInFlight_congr (hs.resized hc).flags
  have hpending := h.pending
  have hrest := h.rest
  cases hs with
  | arrive _ _ => exact h.beside rfl rfl rfl
  | enqueue _ => exact h.beside rfl rfl rfl
  | @dispatch m rest _ _ =>
    obtain ⟨-, slices, db, trace, heq⟩ := handleMessage_frame { x with msgs := rest } m
    rw [heq]
    exact h.beside rfl rfl rfl
  | goto hg => exact h.move rfl rfl hg.forms (hg.rest hrest)
  | retain _ =>
    have hfilter := List.length_filter_le (fun idx => decide ((x.slices idx).state ≠ .free)) x.pending
    refine ⟨?_, Nat.zero_le _⟩
    show (x.pending.filter _).length + 0 ≤ _
    omega
  | acked hp _ _ _ =>
    rw [hp] at hrest
    exact h.move rfl hmax rfl (Nat.le_of_succ_le hrest)
  | rexmit hp _ =>
    rw [hp] at hrest
    exact h.move rfl hmax rfl (Nat.le_of_succ_le hrest)
  | reqack hp _ =>
    rw [hp] at hrest
    exact h.move rfl hmax rfl (Nat.le_of_succ_le hrest)
  | asyncRound h => exact absurd h hc.not_asyncRound
  | @form pos bytes m data _ hroom _ _ _ _ _ =>
    have hforms : (formed x pos bytes data).phase.forms = 1 := by
      show (if x.config.hasFlag flagFec ∧ bytes > 0 then Phase.encoding pos else .sending pos).forms = 1
      split
      · rfl
      · rfl
    have hnone : (formed x pos bytes data).phase.rest = [] := by
      show (if x.config.hasFlag flagFec ∧ bytes > 0 then Phase.encoding pos else .sending pos).rest = []
      split
      · rfl
      · rfl
    refine ⟨?_, ?_⟩
    · rw [hforms]
      exact hroom
    · rw [hnone]
      exact Nat.zero_le _
  | finish _ => exact h.move rfl rfl rfl (Nat.zero_le _)
  | encode hp _ =>
    rw [hp] at hpending
    exact ⟨hpending, Nat.zero_le _⟩
  | @transmit i _ hp _ _ =>
    rw [hp] at hpending
    refine ⟨?_, Nat.zero_le _⟩
    show (x.pending ++ [i]).length + 0 ≤ _
    rw [List.length_append, hmax]
    exact hpending
  | transmitAsync _ _ _ _ _ => exact h.move rfl hmax rfl (Nat.zero_le _)
  | timeout _ _ => exact h.move rfl hmax rfl (Nat.zero_le _)
  | allDropped _ _ => exact h.move rfl hmax rfl (Nat.zero_le _)
  | readerWait _ hw =>
    rcases readerWait_frame hw with rfl | ⟨_, _, rfl⟩
    · exact h.beside rfl rfl rfl
    · exact h.beside rfl rfl rfl
  | readEnd _ => exact h.beside rfl rfl rfl
  | read _ _ => exact h.beside rfl rfl rfl
  | readerConsumed _ _ => exact h.beside rfl rfl rfl
  | readerWrite _ _ => exact h.beside rfl rfl rfl
  | readerProduced _ _ => exact h.beside rfl rfl rfl

/-- The slots in flight are the pending ones, and the one that is being sent. -/
theorem Room.card (h : Room x) (hc : Control x) :
    (Finset.univ.filter fun i => (x.slices i).inFlight).card ≤ x.config.maxInFlight := by
  have hpending := x.pending.toFinset_card_le
  have hle := h.pending
  by_cases hnew : ∃ i, (x.slices i).state = .new
  · obtain ⟨i, hi⟩ := hnew
    have hphase := hc.new i hi
    have hforms : x.phase.forms = 1 := by
      rcases hphase with hp | hp
      · rw [hp]
        rfl
      · rw [hp]
        rfl
    have hsub : (Finset.univ.filter fun i => (x.slices i).inFlight) ⊆ insert i x.pending.toFinset := by
      intro j hj
      rw [Finset.mem_insert, List.mem_toFinset]
      rcases (Finset.mem_filter.mp hj).2 with hj | hj
      · left
        rcases hphase with hp | hp
        · rcases hc.new j hj with hq | hq
          · rw [hp] at hq
            exact (Phase.encoding.inj hq).symm
          · rw [hp] at hq
            cases hq
        · rcases hc.new j hj with hq | hq
          · rw [hp] at hq
            cases hq
          · rw [hp] at hq
            exact (Phase.sending.inj hq).symm
      · exact Or.inr (hc.xmitted j hj)
    have hcard := Finset.card_le_card hsub
    have hinsert := Finset.card_insert_le i x.pending.toFinset
    omega
  · have hsub : (Finset.univ.filter fun i => (x.slices i).inFlight) ⊆ x.pending.toFinset := by
      intro j hj
      rw [List.mem_toFinset]
      rcases (Finset.mem_filter.mp hj).2 with hj | hj
      · exact absurd ⟨j, hj⟩ hnew
      · exact hc.xmitted j hj
    have hcard := Finset.card_le_card hsub
    omega

end Room

end Udpcast.SendData
