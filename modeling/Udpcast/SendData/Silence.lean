import Udpcast.SendData.Progress
import Udpcast.SendData.Waits

/-!
# Participants that fall silent

A slice whose participants do not answer uses up the budget of its rounds, and the participants that
are not ready are dropped.  Those that are left were ready, so that the slice is freed before the
next wait; and for a slice that nobody has answered nobody is left.
-/

namespace Udpcast.SendData

open Sender

def timedOut (_ : Sender) (a : Action) (_ : Sender) : ℕ :=
  match a with
  | .timeout => 1
  | _ => 0

def Action.arrives : Action → Bool
  | .arrive _ => true
  | _ => false

/-- No message comes from the return channel. -/
def Silent (_ : Sender) (a : Action) : Prop := a.arrives = false

instance (x : Sender) (a : Action) : Decidable (Silent x a) := inferInstanceAs (Decidable (_ = _))

/-- When the participants have fallen silent: the number of the next slice, and the rounds of the
slots. -/
structure Silence where
  next : ℤ
  rounds : Fin 8 → ℕ

/-- The timeouts for one slice. -/
def NetConfig.patience (c : NetConfig) : ℕ := (c.retriesUntilDrop + 1).toNat + 1

/-- The silent participants have not answered slot `i` after this round. -/
def Silence.round (q : Silence) (i : Fin 8) (s : Slice) : ℤ :=
  ((if s.sliceNo < q.next then q.rounds i else 0 : ℕ) : ℤ)

/-- A participant is not ready for the slice. -/
def Slice.lacks (s : Slice) (db : ParticipantsDb) : Prop :=
  ¬ Bitmap.bits db.used ⊆ Bitmap.bits s.readySet

instance (s : Slice) (db : ParticipantsDb) : Decidable (s.lacks db) :=
  inferInstanceAs (Decidable (¬ _))

/-- The timeouts that slot `i` can still have. -/
def Silence.left (q : Silence) (x : Sender) (i : Fin 8) : ℕ :=
  if (x.slices i).inFlight ∧ (x.slices i).lacks x.db then
    (x.config.retriesUntilDrop + 1 + q.round i (x.slices i) - (x.slices i).rxmitId).toNat + 1
  else 0

/-- Slot `i` has a slice that nobody has answered. -/
def Silence.unanswered (q : Silence) (x : Sender) (i : Fin 8) : ℕ :=
  if (x.slices i).inFlight ∧ q.next ≤ (x.slices i).sliceNo then 1 else 0

def Silence.slices (q : Silence) (x : Sender) : ℕ :=
  if x.db.nrParticipants = 0 then 0 else x.config.maxInFlight - ∑ i, q.unanswered x i

def Silence.timeouts (q : Silence) (x : Sender) : ℕ :=
  if x.db.nrParticipants = 0 then 0
  else ∑ i, q.left x i + x.config.patience * (x.config.maxInFlight - ∑ i, q.unanswered x i)

structure Quiet (q : Silence) (x : Sender) : Prop where
  control : Control x
  bookkept : Bookkept x
  stamps : Stamps x
  settled : SettledAt x x.phase
  nonAsync : x.config.hasFlag flagAsync = false
  silent : ∀ m, ¬ x.arrived m
  next : q.next ≤ x.sliceNo
  stamp : ∀ cl r i, (x.slices i).inFlight →
    x.db.firstAnsweredRound cl = some ((x.slices i).sliceNo, r) → r ≤ q.round i (x.slices i)
  fresh : ∀ i, (x.slices i).inFlight → q.next ≤ (x.slices i).sliceNo → (x.slices i).readySet = 0

section Quiet

variable {q : Silence} {x x' : Sender} {a : Action} {i : Fin 8}

theorem Resized.retries {c' : NetConfig} (h : Resized x c') :
    c'.retriesUntilDrop = x.config.retriesUntilDrop := by
  cases h with
  | same heq => rw [heq]
  | grown hg =>
    obtain ⟨_, _, rfl⟩ := growSliceSize_eq hg
    rfl
  | @reduced _ s _ _ heq =>
    obtain ⟨_, _, hreduced⟩ := reduceSliceSize_eq x.config s
    rw [heq, hreduced]

theorem lacks_iff {s : Slice} {db : ParticipantsDb} : s.lacks db ↔
    ∃ cl, db.isParticipantValid cl = true ∧ s.readySet.getLsbD cl = false := by
  rw [Slice.lacks, Finset.not_subset]
  simp only [Bitmap.mem_bits, Bool.not_eq_true]
  rfl

theorem lacks_of_lt {s : Slice} {db : ParticipantsDb} (hs : s.Consistent)
    (hlt : s.nrReady < db.nrParticipants) : s.lacks db := by
  intro hsub
  have hle := Finset.card_le_card hsub
  rw [← db.nr_eq, ← hs.ready] at hle
  omega

theorem Quiet.not_dispatch (h : Quiet q x) (hs : step x a = some x') : a ≠ .dispatch := by
  rintro rfl
  simp only [step] at hs
  split at hs
  · rename_i m rest _ hmsgs
    exact h.silent m (Or.inl (by rw [hmsgs]; exact List.mem_cons_self))
  · cases hs

theorem Silence.round_congr (q : Silence) {s s' : Slice} (h : s'.sliceNo = s.sliceNo) :
    q.round i s' = q.round i s := by
  rw [Silence.round, Silence.round, h]

theorem Silence.round_nonneg (q : Silence) (i : Fin 8) (s : Slice) : 0 ≤ q.round i s :=
  Int.natCast_nonneg _

theorem Quiet.step (h : Quiet q x) (ha : Silent x a) (hs : step x a = some x') : Quiet q x' := by
  have hs' := step_cases hs
  have hnot := h.not_dispatch hs
  have hdb := hs'.firstAnsweredRound h.control hnot
  have hcourse := step_course h.control hs hnot
  have hkeep : q.next ≤ x'.sliceNo ∧ (∀ cl r i, (x'.slices i).inFlight →
      x'.db.firstAnsweredRound cl = some ((x'.slices i).sliceNo, r) →
        r ≤ q.round i (x'.slices i)) ∧
      ∀ i, (x'.slices i).inFlight → q.next ≤ (x'.slices i).sliceNo → (x'.slices i).readySet = 0 := by
    have hnext := h.next
    cases hcourse with
    | kept hstays hno _ =>
      refine ⟨hno ▸ hnext, fun cl r i hi hr => ?_, fun i hi hnew => ?_⟩
      · obtain ⟨hi', hsame, -, -⟩ := hstays i hi
        rw [hdb, hsame] at hr
        rw [q.round_congr hsame]
        exact h.stamp cl r i hi' hr
      · obtain ⟨hi', hsame, hready, -⟩ := hstays i hi
        rw [hsame] at hnew
        rw [hready]
        exact h.fresh i hi' hnew
    | @opens pos ho =>
      refine ⟨by rw [ho.next]; omega, fun cl r i hi hr => ?_, fun i hi hnew => ?_⟩
      · rw [hdb] at hr
        by_cases hip : i = pos
        · rw [hip, ho.sliceNo] at hr
          exact absurd (h.stamps.past cl _ r hr) (lt_irrefl _)
        · rw [ho.others i hip] at hi hr ⊢
          exact h.stamp cl r i hi hr
      · by_cases hip : i = pos
        · rw [hip, ho.readySet]
        · rw [ho.others i hip] at hi hnew ⊢
          exact h.fresh i hi hnew
  refine ⟨h.control.step hs', h.bookkept.step h.control hs', h.stamps.step h.control hs,
    h.settled.step h.control hs, ?_, fun m hm => ?_, hkeep.1, hkeep.2.1, hkeep.2.2⟩
  · rw [hasFlag_congr (hs'.resized h.control).flags]
    exact h.nonAsync
  · rcases hs'.arrived h.control hm with hm | hm
    · exact h.silent m hm
    · rw [hm] at ha
      cases ha

/-! ### What a step leaves -/

theorem Tally.nrParticipants_le (h : Tally x x') : x'.db.nrParticipants ≤ x.db.nrParticipants := by
  rw [x.db.nr_eq, x'.db.nr_eq]
  exact Finset.card_le_card fun cl hcl =>
    Bitmap.mem_bits.mpr (h.valid cl (Bitmap.mem_bits.mp hcl))

theorem Tally.nrParticipants_ne_zero (h : Tally x x') (hsome : x'.db.nrParticipants ≠ 0) :
    x.db.nrParticipants ≠ 0 := by
  have hle := h.nrParticipants_le
  omega

/-- A slice that nobody has answered is not freed. -/
theorem Quiet.unanswered_le (h : Quiet q x) (ht : Tally x x') (hsome : x.db.nrParticipants ≠ 0)
    (hstays : Stays (x.slices i) (x'.slices i)) : q.unanswered x i ≤ q.unanswered x' i := by
  by_cases hnew : (x.slices i).inFlight ∧ q.next ≤ (x.slices i).sliceNo
  · have hin : (x'.slices i).inFlight := by
      by_contra hfreed
      have hle := ht.freed i hnew.1 hfreed
      rw [(h.bookkept.slots i).ready, h.fresh i hnew.1 hnew.2, Bitmap.bits_zero] at hle
      exact hsome (Nat.le_zero.mp hle)
    obtain ⟨-, hsame, -, -⟩ := hstays hin
    rw [Silence.unanswered, Silence.unanswered, if_pos hnew, if_pos ⟨hin, by rw [hsame]; exact hnew.2⟩]
  · rw [Silence.unanswered, if_neg hnew]
    exact Nat.zero_le _

theorem Silence.left_le (q : Silence) (ht : Tally x x')
    (hretries : x'.config.retriesUntilDrop = x.config.retriesUntilDrop)
    (hstays : Stays (x.slices i) (x'.slices i)) : q.left x' i ≤ q.left x i := by
  by_cases hleft : (x'.slices i).inFlight ∧ (x'.slices i).lacks x'.db
  · obtain ⟨hin, hsame, hready, hle⟩ := hstays hleft.1
    have hlacks : (x.slices i).lacks x.db := by
      obtain ⟨cl, hvalid, hnot⟩ := lacks_iff.mp hleft.2
      exact lacks_iff.mpr ⟨cl, ht.valid cl hvalid, hready ▸ hnot⟩
    rw [Silence.left, Silence.left, if_pos hleft, if_pos ⟨hin, hlacks⟩, hretries, q.round_congr hsame]
    omega
  · rw [Silence.left, if_neg hleft]
    exact Nat.zero_le _

/-- A new slice takes the place of the timeouts that it can have. -/
theorem Quiet.opens (h : Quiet q x) {pos : Fin 8} (ho : Opens x pos x') :
    ∑ i, q.unanswered x' i = ∑ i, q.unanswered x i + 1 ∧
      ∑ i, q.left x' i ≤ ∑ i, q.left x i + x.config.patience ∧
      ∑ i, q.unanswered x i < x.config.maxInFlight := by
  have hfree : ¬ (x.slices pos).inFlight := by simp [Slice.inFlight, ho.free]
  have hnext := h.next
  refine ⟨?_, ?_, ?_⟩
  · have hsum := sum_update (i := pos) (f := q.unanswered x) (g := q.unanswered x') fun j hj => by
      rw [Silence.unanswered, Silence.unanswered, ho.others j hj]
    have hold : q.unanswered x pos = 0 := if_neg fun hnew => hfree hnew.1
    have hnew : q.unanswered x' pos = 1 := if_pos ⟨ho.formed, by rw [ho.sliceNo]; exact hnext⟩
    omega
  · have hsum := sum_update (i := pos) (f := q.left x) (g := q.left x') fun j hj => by
      rw [Silence.left, Silence.left, ho.others j hj, ho.db, ho.config]
    have hold : q.left x pos = 0 := if_neg fun hleft => hfree hleft.1
    have hnew : q.left x' pos ≤ x.config.patience := by
      rw [Silence.left, NetConfig.patience]
      split
      · rw [ho.config, ho.rxmitId, Silence.round, if_neg (by rw [ho.sliceNo]; omega)]
        simp
      · exact Nat.zero_le _
    omega
  · have hsub : (Finset.univ.filter fun i => (x.slices i).inFlight ∧ q.next ≤ (x.slices i).sliceNo)
        ⊆ x.pending.toFinset := by
      intro j hj
      rw [List.mem_toFinset]
      rcases (Finset.mem_filter.mp hj).2.1 with hj | hj
      · rcases h.control.new j hj with hp | hp
        · rw [ho.phase] at hp
          cases hp
        · rw [ho.phase] at hp
          cases hp
      · exact h.control.xmitted j hj
    have hcard := (Finset.card_le_card hsub).trans x.pending.toFinset_card_le
    rw [Finset.card_filter] at hcard
    exact lt_of_le_of_lt hcard ho.room

/-! ### A timeout -/

/-- The oldest slice lacks a participant when the main loop waits. -/
theorem Quiet.head (h : Quiet q x) (hphase : x.phase = .waiting) :
    ∃ i rest, x.pending = i :: rest ∧ (x.slices i).inFlight ∧ (x.slices i).lacks x.db := by
  have hsettled := h.settled
  rw [hphase] at hsettled
  obtain ⟨hlt, hpending⟩ := hsettled
  obtain ⟨i, rest, hcons⟩ := List.exists_cons_of_ne_nil hpending
  have hcur := h.control.current (Or.inr (Or.inr (Or.inr ⟨hphase, hcons⟩)))
  exact ⟨i, rest, hcons, Or.inr hcur, lacks_of_lt (h.bookkept.slots i) (hlt i hcur)⟩

/-- After the last round that a slice can have nobody is left who is not ready for it. -/
theorem Quiet.ready_of_late (h : Quiet q x) (hin : (x.slices i).inFlight)
    (hlate : x.config.retriesUntilDrop < (x.slices i).rxmitId - q.round i (x.slices i)) :
    ¬ (x.slices i).lacks (afterDrop x i) := by
  have hround := q.round_nonneg i (x.slices i)
  intro hlacks
  obtain ⟨cl, hvalid, hnot⟩ := lacks_iff.mp hlacks
  rw [afterDrop, if_pos (by omega), valid_foldl_remove] at hvalid
  refine hvalid.2 ?_
  rw [toDrop, List.mem_filter, List.mem_range]
  refine ⟨lt_maxClients_of_isParticipantValid hvalid.1, ?_⟩
  rw [hvalid.1, hnot]
  simp only [Bool.not_false, Bool.true_and, decide_eq_true_eq]
  cases hstamp : x.db.firstAnsweredRound cl with
  | none =>
    dsimp only
    omega
  | some stamp =>
    obtain ⟨s, r⟩ := stamp
    dsimp only
    split
    · rename_i hs
      have hle := h.stamp cl r i hin (by rw [hstamp, hs])
      omega
    · omega

theorem timeout_waiting (hs : step x .timeout = some x') : x.phase = .waiting := by
  simp only [step] at hs
  split at hs
  · rename_i hwait
    exact hwait.1
  · cases hs

theorem timedOut_of_ne (h : a ≠ .timeout) : timedOut x a x' = 0 := by
  rw [timedOut]
  exact h

/-- A timeout is one of those that the oldest slice can have. -/
theorem Quiet.left_lt (h : Quiet q x) {rest : List (Fin 8)} (hs : SendData.step x .timeout = some x')
    (hpending : x.pending = i :: rest) (hin : (x.slices i).inFlight)
    (hlacks : (x.slices i).lacks x.db) (hstays : Stays (x.slices i) (x'.slices i))
    (hp : x'.phase ≠ .returned) : q.left x' i < q.left x i := by
  have hround := timeout_rxmitId hpending hs hp
  have hdb := timeout_db hpending hs
  have hretries := ((step_cases hs).resized h.control).retries
  have hold : q.left x i = (x.config.retriesUntilDrop + 1 + q.round i (x.slices i)
    - (x.slices i).rxmitId).toNat + 1 := if_pos ⟨hin, hlacks⟩
  rw [hold, Silence.left]
  split
  · rename_i hleft
    obtain ⟨-, hsame, hready, -⟩ := hstays hleft.1
    have hlacks' : (x.slices i).lacks (afterDrop x i) := by
      have hlacks := hleft.2
      rwa [Slice.lacks, hready, hdb] at hlacks
    have hearly : (x.slices i).rxmitId - q.round i (x.slices i) ≤ x.config.retriesUntilDrop := by
      by_contra hlate
      exact h.ready_of_late hin (by omega) hlacks'
    rw [hround, hretries, q.round_congr hsame]
    omega
  · exact Nat.succ_pos _

theorem nrParticipants_ne_zero {s : Slice} {db : ParticipantsDb} (h : s.lacks db) :
    db.nrParticipants ≠ 0 := by
  obtain ⟨cl, hvalid, -⟩ := lacks_iff.mp h
  rw [db.nr_eq]
  exact Finset.card_ne_zero_of_mem (Bitmap.mem_bits.mpr hvalid)

theorem Quiet.timeouts_pos (h : Quiet q x) (hphase : x.phase = .waiting) : 0 < q.timeouts x := by
  obtain ⟨i, rest, -, hin, hlacks⟩ := h.head hphase
  have hone : 0 < q.left x i := by
    rw [Silence.left, if_pos ⟨hin, hlacks⟩]
    exact Nat.succ_pos _
  have hsum := Finset.single_le_sum (f := q.left x) (fun j _ => Nat.zero_le _) (Finset.mem_univ i)
  rw [Silence.timeouts, if_neg (nrParticipants_ne_zero hlacks)]
  omega

theorem Quiet.sum_left (h : Quiet q x) (hs : SendData.step x a = some x')
    (hsome : x'.db.nrParticipants ≠ 0) (hstays : ∀ i, Stays (x.slices i) (x'.slices i)) :
    ∑ i, q.left x' i + timedOut x a x' ≤ ∑ i, q.left x i := by
  have hs' := step_cases hs
  have ht := hs'.tally h.control h.nonAsync
  have hall : ∀ i ∈ Finset.univ, q.left x' i ≤ q.left x i := fun i _ =>
    q.left_le ht (hs'.resized h.control).retries (hstays i)
  by_cases ha : a = .timeout
  · subst ha
    have hphase := timeout_waiting hs
    obtain ⟨i, rest, hpending, hin, hlacks⟩ := h.head hphase
    have hp : x'.phase ≠ .returned := by
      intro hp
      simp only [SendData.step, hphase, true_and] at hs
      split at hs
      · exact hsome (timeOut_returned hs hp)
      · cases hs
    exact Finset.sum_lt_sum hall
      ⟨i, Finset.mem_univ i, h.left_lt hs hpending hin hlacks (hstays i) hp⟩
  · rw [timedOut_of_ne ha]
    exact Finset.sum_le_sum hall

theorem Quiet.pays (h : Quiet q x) (hs : SendData.step x a = some x') :
    q.timeouts x' + timedOut x a x' ≤ q.timeouts x := by
  have hs' := step_cases hs
  have ht := hs'.tally h.control h.nonAsync
  have hresized := hs'.resized h.control
  by_cases hnone : x'.db.nrParticipants = 0
  · rw [Silence.timeouts, if_pos hnone]
    by_cases ha : a = .timeout
    · subst ha
      exact h.timeouts_pos (timeout_waiting hs)
    · rw [timedOut_of_ne ha]
      exact Nat.zero_le _
  · have hsome := ht.nrParticipants_ne_zero hnone
    rw [Silence.timeouts, Silence.timeouts, if_neg hnone, if_neg hsome,
      maxInFlight_congr hresized.flags, NetConfig.patience, hresized.retries, ← NetConfig.patience]
    cases step_course h.control hs (h.not_dispatch hs) with
    | kept hstays _ _ =>
      have hleft := h.sum_left hs hnone hstays
      have hnew := Finset.sum_le_sum fun i (_ : i ∈ Finset.univ) =>
        h.unanswered_le ht hsome (hstays i)
      have hrest := Nat.mul_le_mul_left x.config.patience
        (Nat.sub_le_sub_left hnew x.config.maxInFlight)
      omega
    | opens ho =>
      obtain ⟨hnew, hleft, hroom⟩ := h.opens ho
      have ha : a ≠ .timeout := by
        rintro rfl
        have hphase := timeout_waiting hs
        rw [ho.phase] at hphase
        cases hphase
      have hplace : x.config.maxInFlight - ∑ i, q.unanswered x i
          = x.config.maxInFlight - (∑ i, q.unanswered x i + 1) + 1 := by omega
      rw [timedOut_of_ne ha, hnew, hplace, Nat.mul_add]
      omega

theorem Quiet.event_eq (h : Quiet q x) (hs : SendData.step x a = some x') :
    event x a x' = timedOut x a x' + newSlice x a x' := by
  cases a with
  | enqueue =>
    simp only [SendData.step] at hs
    split at hs
    · rename_i m hheld
      exact absurd (Or.inr hheld) (h.silent m)
    · cases hs
  | _ => rfl

/-! ### New slices -/

/-- The main loop is left when nobody is there. -/
def Attended (x : Sender) : Prop := x.db.nrParticipants = 0 → x.phase = .returned

theorem Goto.not_returned {p : Phase} (hg : Goto x a p) : x.phase ≠ .returned := by
  intro hp
  cases hg <;> simp_all

theorem timeOut_attended (h : timeOut x = some x') (hsome : x.db.nrParticipants ≠ 0) :
    Attended x' := by
  unfold timeOut at h
  intro hzero
  split at h
  · obtain rfl := Option.some.inj h
    exact absurd hzero hsome
  · dsimp only at h
    split at h
    · split at h
      · obtain rfl := Option.some.inj h
        rfl
      · rename_i hleft
        obtain ⟨y, hy, rfl⟩ := Option.map_eq_some_iff.mp h
        have hdb := nextRound_db hy
        exact absurd ((congrArg _ hdb).symm.trans hzero) hleft
    · obtain ⟨y, hy, rfl⟩ := Option.map_eq_some_iff.mp h
      have hdb := nextRound_db hy
      exact absurd ((congrArg _ hdb).symm.trans hzero) hsome

theorem Attended.step (h : Attended x) (hc : Control x) (ha : a ≠ .dispatch)
    (hs : SendData.step x a = some x') : Attended x' := by
  have hloop : ∀ {p : Phase}, x.phase = p → p ≠ .returned → x.db.nrParticipants ≠ 0 :=
    fun hp hne hzero => hne (hp ▸ h hzero)
  cases step_cases hs with
  | dispatch _ _ => exact absurd rfl ha
  | arrive _ _ => exact h
  | enqueue _ => exact h
  | goto hg => exact fun hzero => absurd (h hzero) hg.not_returned
  | retain hp =>
    rcases hp with hp | hp
    · exact fun hzero => absurd hzero (hloop hp (by simp))
    · exact fun hzero => absurd hzero (hloop hp (by simp))
  | acked hp _ _ _ => exact fun hzero => absurd hzero (hloop hp (by simp))
  | rexmit hp _ => exact fun hzero => absurd hzero (hloop hp (by simp))
  | reqack hp _ => exact fun hzero => absurd hzero (hloop hp (by simp))
  | asyncRound h => exact absurd h hc.not_asyncRound
  | form hp _ _ _ _ _ _ => exact fun hzero => absurd hzero (hloop hp (by simp))
  | finish _ => exact fun _ => rfl
  | encode hp _ => exact fun hzero => absurd hzero (hloop hp (by simp))
  | transmit hp _ _ => exact fun hzero => absurd hzero (hloop hp (by simp))
  | transmitAsync hp _ _ _ _ => exact fun hzero => absurd hzero (hloop hp (by simp))
  | timeout hp _ =>
    have hsome := hloop hp (by simp)
    simp only [SendData.step] at hs
    split at hs
    · exact timeOut_attended hs hsome
    · cases hs
  | allDropped _ _ => exact fun _ => rfl
  | readerWait _ hw =>
    rcases readerWait_frame hw with rfl | ⟨_, _, rfl⟩
    · exact h
    · exact h
  | readEnd _ => exact h
  | read _ _ => exact h
  | readerConsumed _ _ => exact h
  | readerWrite _ _ => exact h
  | readerProduced _ _ => exact h

theorem Quiet.step_attended (h : Quiet q x ∧ Attended x) (ha : Silent x a)
    (hs : SendData.step x a = some x') : Quiet q x' ∧ Attended x' :=
  ⟨h.1.step ha hs, h.2.step h.1.control (h.1.not_dispatch hs) hs⟩

theorem Quiet.forms (h : Quiet q x) (hatt : Attended x) (hs : SendData.step x a = some x') :
    q.slices x' + newSlice x a x' ≤ q.slices x := by
  have hs' := step_cases hs
  have ht := hs'.tally h.control h.nonAsync
  have hmax := maxInFlight_congr (hs'.resized h.control).flags
  cases step_course h.control hs (h.not_dispatch hs) with
  | kept hstays _ hcuts =>
    have hnone : newSlice x a x' = 0 := by rw [newSlice, hcuts, Nat.sub_self]
    rw [hnone, Silence.slices, Silence.slices]
    split
    · exact Nat.zero_le _
    · rename_i hsome'
      have hsome := ht.nrParticipants_ne_zero hsome'
      rw [if_neg hsome, hmax]
      exact Nat.sub_le_sub_left (Finset.sum_le_sum fun i _ =>
        h.unanswered_le ht hsome (hstays i)) _
  | opens ho =>
    obtain ⟨hnew, -, hroom⟩ := h.opens ho
    have hsome : x.db.nrParticipants ≠ 0 := by
      intro hzero
      have hp := hatt hzero
      rw [ho.phase] at hp
      cases hp
    have hone : newSlice x a x' = 1 := by
      rw [newSlice, ho.cuts, Nat.add_sub_cancel_left]
    rw [hone, Silence.slices, Silence.slices, ho.db, if_neg hsome, if_neg hsome, hmax, hnew]
    omega

end Quiet

/-! ### All runs -/

structure Steady (x : Sender) : Prop where
  control : Control x
  bookkept : Bookkept x
  stamps : Stamps x
  settled : SettledAt x x.phase
  room : Room x

theorem Steady.step {x x' : Sender} {a : Action} (h : Steady x) (hs : SendData.step x a = some x') :
    Steady x' where
  control := h.control.step (step_cases hs)
  bookkept := h.bookkept.step h.control (step_cases hs)
  stamps := h.stamps.step h.control hs
  settled := h.settled.step h.control hs
  room := h.room.step h.control (step_cases hs)

theorem start_top {config : NetConfig} {db : ParticipantsDb} {x : Sender}
    (h : Sender.start config db = some x) : x.phase = .top ∧ x.pending = [] := by
  simp only [Sender.start, Option.bind_eq_bind, Option.bind_eq_some_iff] at h
  obtain ⟨fifo, -, nrFec, -, c₁, -, c₂, -, h⟩ := h
  obtain rfl := Option.some.inj h
  exact ⟨rfl, rfl⟩

theorem start_retries {config : NetConfig} {db : ParticipantsDb} {x : Sender}
    (h : Sender.start config db = some x) :
    x.config.retriesUntilDrop = config.retriesUntilDrop := by
  obtain ⟨_, _, _, hconfig⟩ := start_config h
  rw [hconfig]

theorem steady_start {config : NetConfig} {db : ParticipantsDb} {x : Sender}
    (hfresh : ∀ cl, db.firstAnsweredRound cl = none) (h : Sender.start config db = some x) :
    Steady x := by
  obtain ⟨hphase, hpending⟩ := start_top h
  refine ⟨control_start h, bookkept_start h, stamps_start hfresh h, ?_, ?_⟩
  · rw [hphase]
    trivial
  · refine ⟨?_, ?_⟩
    · rw [hphase, hpending]
      exact Nat.zero_le _
    · rw [hphase, hpending]
      exact le_rfl

def Sender.silence (x : Sender) : Silence := ⟨x.sliceNo, fun i => (x.slices i).rxmitId.toNat⟩

section Silence

variable {x : Sender} {i : Fin 8}

theorem Steady.silence_round (h : Steady x) (hin : (x.slices i).inFlight) :
    x.silence.round i (x.slices i) = (x.slices i).rxmitId := by
  obtain ⟨hlt, hnonneg⟩ := h.stamps.slot i hin
  rw [Silence.round, if_pos (show (x.slices i).sliceNo < x.silence.next from hlt)]
  exact Int.toNat_of_nonneg hnonneg

theorem Steady.quiet (h : Steady x) (hasync : x.config.hasFlag flagAsync = false)
    (hsilent : ∀ m, ¬ x.arrived m) : Quiet x.silence x where
  control := h.control
  bookkept := h.bookkept
  stamps := h.stamps
  settled := h.settled
  nonAsync := hasync
  silent := hsilent
  next := le_rfl
  stamp cl r i hin hr := by
    rw [h.silence_round hin]
    exact h.stamps.round cl r i hin hr
  fresh i hin hnew := absurd (h.stamps.slot i hin).1 (not_lt.mpr hnew)

theorem Room.sum_le (h : Room x) (hc : Control x) {f : Fin 8 → ℕ} {k : ℕ}
    (hslot : ∀ i, f i ≤ if (x.slices i).inFlight then k else 0) :
    ∑ i, f i ≤ x.config.maxInFlight * k := by
  calc ∑ i, f i
      ≤ ∑ i, if (x.slices i).inFlight then k else 0 := Finset.sum_le_sum fun i _ => hslot i
    _ = (Finset.univ.filter fun i => (x.slices i).inFlight).card * k := by
        rw [← Finset.sum_filter, Finset.sum_const, smul_eq_mul]
    _ ≤ x.config.maxInFlight * k := Nat.mul_le_mul_right k (h.card hc)

/-- At the beginning of a silence each slice in flight and each that can still be formed has its
budget. -/
theorem Steady.timeouts_le (h : Steady x) :
    x.silence.timeouts x ≤ 2 * x.config.maxInFlight * x.config.patience := by
  have hleft : ∀ i, x.silence.left x i ≤ if (x.slices i).inFlight then x.config.patience else 0 := by
    intro i
    by_cases hin : (x.slices i).inFlight
    · rw [Silence.left, if_pos hin, NetConfig.patience]
      split
      · rw [h.silence_round hin, add_sub_cancel_right]
      · exact Nat.zero_le _
    · rw [Silence.left, if_neg fun hleft => hin hleft.1]
      exact Nat.zero_le _
  have hsum := h.room.sum_le h.control hleft
  have hplaces := Nat.mul_le_mul_left x.config.patience
    (Nat.sub_le x.config.maxInFlight (∑ i, x.silence.unanswered x i))
  rw [Silence.timeouts]
  split
  · exact Nat.zero_le _
  · calc _ ≤ x.config.maxInFlight * x.config.patience + x.config.patience * x.config.maxInFlight :=
          Nat.add_le_add hsum hplaces
      _ = 2 * x.config.maxInFlight * x.config.patience := by ring

theorem Silence.slices_le (q : Silence) (x : Sender) : q.slices x ≤ x.config.maxInFlight := by
  rw [Silence.slices]
  split
  · exact Nat.zero_le _
  · exact Nat.sub_le _ _

theorem Phase.due_le (p : Phase) : p.due ≤ max 64 (p.rest.length + 53) := by
  cases p with
  | acking rest nr fr =>
    have hfr := passAgain_le fr
    simp only [Phase.due, Phase.rest]
    omega
  | rexmitting rest fl =>
    have hfl := passAgain_le fl
    simp only [Phase.due, Phase.rest]
    omega
  | reqacking rest nr fr =>
    have hfr := passAgain_le fr
    simp only [Phase.due, Phase.rest]
    omega
  | top => simp [Phase.due]
  | forming => simp [Phase.due]
  | encoding _ => simp [Phase.due]
  | sending _ => simp [Phase.due]
  | waiting => simp [Phase.due]
  | returned => simp [Phase.due]

theorem Slice.due_le (s : Slice) : s.due ≤ if s.inFlight then 62 else 0 := by
  by_cases hstate : s.state = .xmitted
  · have hagain := passAgain_le s.needRxmit
    have hin : s.inFlight := Or.inr hstate
    rw [if_pos hin, due_xmitted hstate]
    omega
  · rw [due_of_ne hstate]
    exact Nat.zero_le _

theorem Room.due_le (h : Room x) (hc : Control x) (hmsgs : x.msgs = []) : x.due ≤ 250 := by
  have hthree := maxInFlight_le x.config
  have hpending := h.pending
  have hrest := h.rest
  have hphase := x.phase.due_le
  have hsum := h.sum_le hc fun i => (x.slices i).due_le
  rw [Sender.due, hmsgs, List.length_nil]
  omega

end Silence

/-- A run leads to a time at which no message is left. -/
theorem steady_of_run {config : NetConfig} {db : ParticipantsDb} {x₀ x : Sender}
    (hstart : Sender.start config db = some x₀) (hasync : config.hasFlag flagAsync = false)
    (hfresh : ∀ cl, db.firstAnsweredRound cl = none)
    (hrun : Run.Reach step (fun _ _ => True) x₀ x) (harrived : ∀ m, ¬ x.arrived m) :
    Steady x ∧ Quiet x.silence x ∧ x.config.maxInFlight = config.maxInFlight ∧
      x.config.patience = config.patience := by
  obtain ⟨hsteady, hflags, hretries⟩ := hrun.invariant (I := fun x => Steady x ∧
      x.config.flags = config.flags ∧ x.config.retriesUntilDrop = config.retriesUntilDrop)
    ⟨steady_start hfresh hstart, start_flags hstart, start_retries hstart⟩
    fun s a s' ⟨h, hflags, hretries⟩ _ hs => by
      have hresized := (step_cases hs).resized h.control
      exact ⟨h.step hs, hresized.flags.trans hflags, hresized.retries.trans hretries⟩
  refine ⟨hsteady, hsteady.quiet ((hasFlag_congr hflags flagAsync).trans hasync) harrived,
    maxInFlight_congr hflags, ?_⟩
  rw [NetConfig.patience, hretries, NetConfig.patience]

/-- From any time at which no message is left, in every run in which none comes: there are at most
`2 * max_in_flight` times as many timeouts as a slice can have, and fewer when the main loop waits
for another one; and no more than `max_in_flight` slices are formed if there is a participant. -/
theorem silent_bounded (config : NetConfig) (db : ParticipantsDb) (x₀ x y : Sender)
    (timeouts slices : ℕ) (hstart : Sender.start config db = some x₀)
    (hasync : config.hasFlag flagAsync = false) (hfresh : ∀ cl, db.firstAnsweredRound cl = none)
    (hrun : Run.Reach step (fun _ _ => True) x₀ x) (harrived : ∀ m, ¬ x.arrived m)
    (hsilent : Run.Reach (Run.observe step (Run.account timedOut newSlice))
      (fun p a => Silent p.1 a) (x, 0, 0) (y, timeouts, slices)) :
    timeouts ≤ 2 * config.maxInFlight * config.patience ∧
      (y.phase = .waiting → timeouts < 2 * config.maxInFlight * config.patience) ∧
      (x.db.nrParticipants ≠ 0 → slices ≤ config.maxInFlight) := by
  obtain ⟨hsteady, hquiet, hmax, hpatience⟩ := steady_of_run hstart hasync hfresh hrun harrived
  have hbudget := hsteady.timeouts_le
  have hplaces := x.silence.slices_le x
  rw [hmax] at hplaces
  rw [hmax, hpatience] at hbudget
  have hlast : Quiet x.silence y := hsilent.invariant (I := fun p => Quiet x.silence p.1) hquiet
    fun _ _ _ h ha hs => h.step ha (Run.observe_eq_some.mp hs).1
  have hpaid := hsilent.paid (I := Quiet x.silence) (Φ := x.silence.timeouts) (k := 0) hquiet
    (fun _ _ _ h ha hs => h.step ha hs) (fun _ _ _ h _ hs => by
      rw [Nat.zero_mul]
      exact h.pays hs)
  dsimp only at hpaid
  refine ⟨by omega, fun hwait => ?_, fun hsome => ?_⟩
  · have hpos := hlast.timeouts_pos hwait
    omega
  · have hformed := hsilent.swap.paid (I := fun z => Quiet x.silence z ∧ Attended z)
      (Φ := x.silence.slices) (k := 0) ⟨hquiet, fun hzero => absurd hzero hsome⟩
      (fun _ _ _ h ha hs => Quiet.step_attended h ha hs)
      (fun _ _ _ h _ hs => by
        rw [Nat.zero_mul]
        exact h.1.forms h.2 hs)
    dsimp only [Prod.swap] at hformed
    omega

/-- A half-duplex transfer with a budget of one round. -/
def oneRetry : NetConfig := { halfDuplex with retriesUntilDrop := 1 }

/-- An input of one byte is sent, and the main loop waits. -/
def sendAndWait : List Action := sendOne ++ List.replicate 8 .advance

/-- A timeout, and the way back to the wait. -/
def waitAgain : List Action := .timeout :: List.replicate 8 .advance

/-- The main loop waits for two participants, which do not answer and are dropped at the third
timeout: the time at which the wait began, and the end with the two sums. -/
def silentRun (f g : Sender → Action → Sender → ℕ) :
    Option (Sender × Sender × ℕ × ℕ) :=
  (Sender.start oneRetry twoParticipants).bind fun x₀ =>
    (Run.exec step (fun _ _ => True) x₀ sendAndWait).bind fun x =>
      (Run.exec (Run.observe step (Run.account f g)) (fun p a => Silent p.1 a) (x, 0, 0)
        (waitAgain ++ waitAgain ++ [.timeout])).map fun p => (x, p)

theorem silentRun_reach {f g : Sender → Action → Sender → ℕ} {n k : ℕ}
    (h : (silentRun f g).map (fun q => decide (q.1.msgs = [] ∧ q.1.held.isNone ∧
      q.1.db.nrParticipants = 2 ∧ q.2.2 = (n, k) ∧ q.2.1.phase = .returned)) = some true) :
    ∃ x₀ x y, Sender.start oneRetry twoParticipants = some x₀ ∧
      Run.Reach step (fun _ _ => True) x₀ x ∧ (∀ m, ¬ x.arrived m) ∧ x.db.nrParticipants = 2 ∧
      Run.Reach (Run.observe step (Run.account f g)) (fun p a => Silent p.1 a)
        (x, 0, 0) (y, n, k) ∧ y.phase = .returned := by
  obtain ⟨q, hq, hseen⟩ := Option.map_eq_some_iff.mp h
  obtain ⟨x₀, hstart, hq⟩ := Option.bind_eq_some_iff.mp hq
  obtain ⟨x, hx, hq⟩ := Option.bind_eq_some_iff.mp hq
  obtain ⟨⟨y, sums⟩, hy, rfl⟩ := Option.map_eq_some_iff.mp hq
  obtain ⟨hmsgs, hheld, htwo, hsums, hreturned⟩ := of_decide_eq_true hseen
  dsimp only at hmsgs hheld htwo hsums hreturned
  subst hsums
  refine ⟨x₀, x, y, hstart, Run.reach_of_exec hx, ?_, htwo, Run.reach_of_exec hy, hreturned⟩
  rintro m (hm | hm)
  · rw [hmsgs] at hm
    cases hm
  · rw [hm] at hheld
    cases hheld

/-- Two participants do not answer, and are dropped at the third timeout. -/
theorem silent_bounded_twoParticipants : ∃ x y : Sender, x.db.nrParticipants = 2 ∧
    y.phase = .returned ∧ 3 ≤ 2 * oneRetry.maxInFlight * oneRetry.patience ∧
    (y.phase = .waiting → 3 < 2 * oneRetry.maxInFlight * oneRetry.patience) ∧
    (x.db.nrParticipants ≠ 0 → 0 ≤ oneRetry.maxInFlight) := by
  obtain ⟨x₀, x, y, hstart, hrun, harrived, htwo, hsilent, hreturned⟩ :=
    silentRun_reach (f := timedOut) (g := newSlice) (n := 3) (k := 0) (by decide +kernel)
  exact ⟨x, y, htwo, hreturned, silent_bounded oneRetry twoParticipants x₀ x y 3 0 hstart (by decide)
    (fun _ => rfl) hrun harrived hsilent⟩

/-- In every such run, if there is a participant, the main loop takes no more than this number of
steps. -/
theorem silent_ends (config : NetConfig) (db : ParticipantsDb) (x₀ x y : Sender)
    (steps events : ℕ) (hstart : Sender.start config db = some x₀)
    (hasync : config.hasFlag flagAsync = false) (hfresh : ∀ cl, db.firstAnsweredRound cl = none)
    (hrun : Run.Reach step (fun _ _ => True) x₀ x) (harrived : ∀ m, ¬ x.arrived m)
    (hsome : x.db.nrParticipants ≠ 0)
    (hsilent : Run.Reach (Run.observe step (Run.account loopStep event))
      (fun p a => Silent p.1 a) (x, 0, 0) (y, steps, events)) :
    steps ≤ 250 + 64 * (config.maxInFlight * (2 * config.patience + 1)) := by
  obtain ⟨hsteady, hquiet, hmax, hpatience⟩ := steady_of_run hstart hasync hfresh hrun harrived
  have hbudget := hsteady.timeouts_le
  have hplaces := x.silence.slices_le x
  rw [hmax] at hplaces
  rw [hmax, hpatience] at hbudget
  have hdue := hsteady.room.due_le hsteady.control
    (List.eq_nil_iff_forall_not_mem.mpr fun m hm => harrived m (Or.inl hm))
  have hpaid := hsilent.paid (I := Control) (Φ := Sender.due) (k := 64) hsteady.control
    (fun _ _ _ hc _ hs => hc.step (step_cases hs)) (fun _ _ _ hc _ hs => (step_cases hs).pays hc hs)
  have hevents := hsilent.swap.paid (I := fun z => Quiet x.silence z ∧ Attended z)
    (Φ := fun z => x.silence.timeouts z + x.silence.slices z) (k := 0)
    ⟨hquiet, fun hzero => absurd hzero hsome⟩
    (fun _ _ _ h ha hs => Quiet.step_attended h ha hs)
    (fun _ _ _ h _ hs => by
      have hpays := h.1.pays hs
      have hforms := h.1.forms h.2 hs
      rw [h.1.event_eq hs]
      omega)
  dsimp only [Prod.swap] at hpaid hevents
  have hall : events ≤ config.maxInFlight * (2 * config.patience + 1) := by
    calc events ≤ 2 * config.maxInFlight * config.patience + config.maxInFlight := by omega
      _ = config.maxInFlight * (2 * config.patience + 1) := by ring
  omega

/-- The two participants are given up after sixteen steps. -/
theorem silent_ends_twoParticipants : ∃ y : Sender, y.phase = .returned ∧
    16 ≤ 250 + 64 * (oneRetry.maxInFlight * (2 * oneRetry.patience + 1)) := by
  obtain ⟨x₀, x, y, hstart, hrun, harrived, htwo, hsilent, hreturned⟩ :=
    silentRun_reach (f := loopStep) (g := event) (n := 16) (k := 3) (by decide +kernel)
  have hsome : x.db.nrParticipants ≠ 0 := by
    rw [htwo]
    decide
  exact ⟨y, hreturned, silent_ends oneRetry twoParticipants x₀ x y 16 3 hstart (by decide)
    (fun _ => rfl) hrun harrived hsome hsilent⟩

end Udpcast.SendData
