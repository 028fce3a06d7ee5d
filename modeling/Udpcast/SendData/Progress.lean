import Udpcast.Backpressure
import Udpcast.Lib.Accounts
import Udpcast.SendData.Returns

/-!
# The main loop does not spin

A pass of the main loop ends at its top again when a slot has been freed, blocks have been sent
again or a slice has been sent, and goes to the wait otherwise.  What is still to be done before
the next wait is measured by `due`; only a message, a timeout or a new slice adds to it.
-/

namespace Udpcast.SendData

open Sender

/-- What a slot can bring about: a pass when it is freed, and one when its blocks are sent again. -/
def Slice.due (s : Slice) : ℕ := if s.state = .xmitted then if s.needRxmit then 62 else 31 else 0

/-- A pass that ends at the top of the loop. -/
def passAgain (again : Bool) : ℕ := if again then 31 else 0

@[simp] theorem passAgain_true : passAgain true = 31 := rfl
@[simp] theorem passAgain_false : passAgain false = 0 := rfl

theorem passAgain_le (again : Bool) : passAgain again ≤ 31 := by
  cases again with
  | true => exact le_rfl
  | false => exact Nat.zero_le _

/-- The steps to the end of a pass. -/
def Phase.due : Phase → ℕ
  | .top => 31
  | .acking rest _ freed => rest.length + 22 + passAgain freed
  | .rexmitting rest retransmitted => rest.length + 13 + passAgain retransmitted
  | .reqacking rest _ freed => rest.length + 4 + passAgain freed
  | .forming => 3
  | .encoding _ => 64
  | .sending _ => 63
  | .waiting => 0
  | .returned => 0

/-- A message is dispatched at the top, may ask for blocks, and may end the wait before that. -/
def Phase.dueMessage : Phase → ℕ
  | .top => 32
  | _ => 64

def Sender.due (x : Sender) : ℕ :=
  x.phase.due + ∑ i, (x.slices i).due + x.phase.dueMessage * x.msgs.length

def loopStep (_ : Sender) (a : Action) (_ : Sender) : ℕ :=
  match a with
  | .dispatch | .advance | .wake => 1
  | _ => 0

def newSlice (x : Sender) (_ : Action) (x' : Sender) : ℕ := x'.cuts.length - x.cuts.length

/-- A message in the queue, a timeout or a new slice. -/
def event (x : Sender) (a : Action) (x' : Sender) : ℕ :=
  (match a with
  | .enqueue | .timeout => 1
  | _ => 0) + newSlice x a x'

section Due

variable {x x' : Sender} {a : Action} {i : Fin 8}

theorem Slice.due_congr {s s' : Slice} (hstate : s'.state = s.state)
    (hneed : s'.needRxmit = s.needRxmit) : s'.due = s.due := by
  rw [Slice.due, Slice.due, hstate, hneed]

theorem due_xmitted {s : Slice} (h : s.state = .xmitted) :
    s.due = 31 + passAgain s.needRxmit := by
  rw [Slice.due, if_pos h, passAgain]
  cases s.needRxmit with
  | true => rfl
  | false => rfl

theorem due_of_ne {s : Slice} (h : s.state ≠ .xmitted) : s.due = 0 := if_neg h

theorem sum_due_congr {y : Sender} (h : ∀ j, (y.slices j).due = (x.slices j).due) :
    ∑ j, (y.slices j).due = ∑ j, (x.slices j).due := Finset.sum_congr rfl fun j _ => h j

theorem sum_due_update {y : Sender} (h : ∀ j, j ≠ i → y.slices j = x.slices j) :
    ∑ j, (y.slices j).due + (x.slices i).due = ∑ j, (x.slices j).due + (y.slices i).due :=
  sum_update (f := fun j => (x.slices j).due) (g := fun j => (y.slices j).due)
    fun j hj => congrArg Slice.due (h j hj)

theorem dueMessage_le (p : Phase) : p.dueMessage ≤ 64 := by
  unfold Phase.dueMessage
  split
  · decide
  · exact le_rfl

theorem top_dueMessage_le (p : Phase) : Phase.top.dueMessage ≤ p.dueMessage := by
  show 32 ≤ _
  unfold Phase.dueMessage
  split
  · exact le_rfl
  · decide

theorem Control.length_pending (h : Control x) : x.pending.length ≤ 8 := h.nodup.length_le_card

theorem Control.findFreeSlice_ne_none (h : Control x) (hphase : x.phase = .forming)
    (hroom : x.pending.length < x.config.maxInFlight) : findFreeSlice x ≠ none := by
  intro hnone
  have hall : ∀ i, i ∈ x.pending := by
    intro i
    have hfree := List.find?_eq_none.mp hnone i (List.mem_finRange i)
    rw [decide_eq_true_eq] at hfree
    apply h.xmitted
    cases hs : (x.slices i).state with
    | free => exact absurd hs hfree
    | new =>
      rcases h.new i hs with hp | hp
      · rw [hphase] at hp
        cases hp
      · rw [hphase] at hp
        cases hp
    | xmitted => rfl
    | acked => exact absurd hs (h.notAcked i)
  have hlen : 8 ≤ x.pending.length := by
    rw [← List.toFinset_card_of_nodup h.nodup, Finset.eq_univ_of_forall (s := x.pending.toFinset)
      fun i => List.mem_toFinset.mpr (hall i), Finset.card_univ, Fintype.card_fin]
  have hmax := maxInFlight_le x.config
  omega

/-- The loop goes back to its top from here with a new slice only. -/
theorem Control.formOrWait_ne_top (h : Control x) (hphase : x.phase = .forming)
    (hs : formOrWait x = some x') : x'.phase ≠ .top := by
  unfold formOrWait at hs
  intro hp
  split at hs
  · rename_i hroom
    cases hfree : findFreeSlice x with
    | none => exact h.findFreeSlice_ne_none hphase hroom.1 hfree
    | some pos =>
      rw [hfree] at hs
      rcases formSlice_phase hs with hform | hform
      · rw [hform] at hp
        cases hp
      · rw [hform] at hp
        cases hp
  · split at hs
    · obtain rfl := Option.some.inj hs
      cases hp
    · split at hs
      · obtain rfl := Option.some.inj hs
        cases hp
      · obtain rfl := Option.some.inj hs
        cases hp

theorem due_at {p : Phase} (h : x.phase = p) :
    x.due = p.due + ∑ j, (x.slices j).due + p.dueMessage * x.msgs.length := by
  rw [Sender.due, h]

theorem pays_phase {p q : Phase} {n k : ℕ} (hp : x.phase = p) (hq : x'.phase = q)
    (hmsgs : x'.msgs = x.msgs) (hslices : x'.slices = x.slices)
    (hmessage : q.dueMessage ≤ p.dueMessage) (hdue : q.due + n ≤ p.due + k) :
    x'.due + n ≤ x.due + k := by
  have hlen := Nat.mul_le_mul_right x.msgs.length hmessage
  rw [due_at hp, due_at hq, hmsgs, hslices]
  omega

theorem pays_slot {p q : Phase} {n k : ℕ} (hp : x.phase = p) (hq : x'.phase = q)
    (hmsgs : x'.msgs = x.msgs) (hmessage : q.dueMessage ≤ p.dueMessage)
    (hother : ∀ j, j ≠ i → x'.slices j = x.slices j)
    (hslot : q.due + (x'.slices i).due + n ≤ p.due + (x.slices i).due + k) :
    x'.due + n ≤ x.due + k := by
  have hsum := sum_due_update hother
  have hlen := Nat.mul_le_mul_right x.msgs.length hmessage
  rw [due_at hp, due_at hq, hmsgs]
  omega

theorem wake_msgs (hs : step x .wake = some x') : x.msgs ≠ [] := by
  unfold step at hs
  dsimp only at hs
  split at hs
  · rename_i h
    exact h.2
  · cases hs

theorem Goto.pays {p : Phase} (hg : Goto x a p) (hc : Control x)
    (hs : step x a = some { x with phase := p }) :
    { x with phase := p }.due + loopStep x a { x with phase := p }
      ≤ x.due + 64 * event x a { x with phase := p } := by
  have hlen := hc.length_pending
  cases hg with
  | top hp hnil =>
    rw [due_at hp, due_at (x := { x with phase := _ }) rfl]
    simp only [Phase.due, passAgain_false, loopStep, hnil, List.length_nil, Nat.mul_zero]
    omega
  | notReady hp =>
    refine pays_phase hp rfl rfl rfl le_rfl ?_
    simp only [Phase.due, List.length_cons, loopStep]
    omega
  | acked hp =>
    refine pays_phase hp rfl rfl rfl le_rfl ?_
    simp only [Phase.due, passAgain_false, List.length_nil, loopStep]
    omega
  | complete hp _ =>
    refine pays_phase hp rfl rfl rfl le_rfl ?_
    simp only [Phase.due, List.length_cons, loopStep]
    omega
  | rexmitted hp =>
    refine pays_phase hp rfl rfl rfl (top_dueMessage_le _) ?_
    simp only [Phase.due, passAgain_true, List.length_nil, loopStep]
    omega
  | rexmittedNone hp =>
    refine pays_phase hp rfl rfl rfl le_rfl ?_
    simp only [Phase.due, passAgain_false, List.length_nil, loopStep]
    omega
  | notAnswered hp _ =>
    refine pays_phase hp rfl rfl rfl le_rfl ?_
    simp only [Phase.due, List.length_cons, loopStep]
    omega
  | reqacked hp =>
    refine pays_phase hp rfl rfl rfl le_rfl ?_
    simp only [Phase.due, passAgain_false, List.length_nil, loopStep]
    omega
  | noSlot hp =>
    unfold step at hs
    dsimp only at hs
    unfold advance at hs
    rw [hp] at hs
    exact absurd rfl (hc.formOrWait_ne_top hp hs)
  | wait hp =>
    refine pays_phase hp rfl rfl rfl le_rfl ?_
    simp only [Phase.due, loopStep]
    omega
  | woken hp ha =>
    rw [due_at hp, due_at (x := { x with phase := _ }) rfl]
    rcases ha with rfl | ⟨rfl, -⟩
    · have hmsgs := List.length_pos_iff.mpr (wake_msgs hs)
      simp only [Phase.due, Phase.dueMessage, loopStep]
      omega
    · simp only [Phase.due, Phase.dueMessage, loopStep, event]
      omega

theorem due_answer (find : ℤ → Option (Fin 8)) (s : Slice) (m : IncomingMsg)
    (h : ∀ no cl map rxmit, m = .retransmit no cl map rxmit → find no ≠ some i) :
    (Slice.answer find i s m).due = s.due := by
  cases m with
  | ok no cl =>
    rw [Slice.answer]
    split
    · rw [ready_eq]
      exact Slice.due_congr rfl rfl
    · rfl
  | retransmit no cl map rxmit => rw [Slice.answer, if_neg (h no cl map rxmit rfl)]
  | disconnect cl =>
    rw [Slice.answer, forget_eq]
    exact Slice.due_congr rfl rfl

theorem due_missing (s : Slice) (cl : ℕ) (map : Bitmap) : (s.missing cl map).due ≤ s.due + 31 := by
  rw [missing_eq, Slice.due, Slice.due]
  dsimp only
  rw [if_pos rfl]
  split
  · split
    · omega
    · exact le_rfl
  · exact Nat.zero_le _

theorem sum_due_handleMessage (x : Sender) (m : IncomingMsg) :
    ∑ j, ((handleMessage x m).slices j).due ≤ ∑ j, (x.slices j).due + 31 := by
  by_cases hone : ∃ i no cl map rxmit, m = .retransmit no cl map rxmit ∧ findSlice x no = some i
  · obtain ⟨i, no, cl, map, rxmit, rfl, hfind⟩ := hone
    have hsum := sum_due_update (x := x) (y := handleMessage x (.retransmit no cl map rxmit)) (i := i)
      fun j hj => by
        rw [slices_handleMessage, Slice.answer, if_neg]
        rintro hfind'
        exact hj (Option.some.inj (hfind'.symm.trans hfind))
    have hslot : ((handleMessage x (.retransmit no cl map rxmit)).slices i).due
        ≤ (x.slices i).due + 31 := by
      rw [slices_handleMessage, Slice.answer, if_pos hfind]
      exact due_missing _ cl map
    omega
  · have hsum := sum_due_congr (x := x) (y := handleMessage x m) fun j => by
      rw [slices_handleMessage]
      exact due_answer _ _ _ fun no cl map rxmit hm hfind => hone ⟨j, no, cl, map, rxmit, hm, hfind⟩
    omega

theorem due_nextRound (s : Slice) : s.nextRound.due ≤ s.due := by
  by_cases h : s.state = .xmitted
  · rw [due_xmitted h, due_xmitted (s := s.nextRound) h]
    exact Nat.add_le_add_left (Nat.zero_le _) 31
  · rw [due_of_ne (s := s.nextRound) h]
    exact Nat.zero_le _

theorem due_requested (x : Sender) (i : Fin 8) (rxmitId : ℤ) :
    ((requested (bumped x i rxmitId) i).slices i).due ≤ (x.slices i).due := by
  rw [requested_slices_self, bumped_slices_self]
  exact (due_nextRound _).trans (Slice.due_congr rfl rfl).le

theorem StepTo.pays (hs : StepTo x a x') (hc : Control x) (hstep : step x a = some x') :
    x'.due + loopStep x a x' ≤ x.due + 64 * event x a x' := by
  cases hs with
  | arrive _ _ => exact Nat.le_add_right _ _
  | @enqueue m _ =>
    have hd := dueMessage_le x.phase
    rw [due_at (x := { x with held := none, msgs := x.msgs ++ [m] }) rfl, Sender.due]
    simp only [List.length_append, List.length_singleton, Nat.mul_add, event, loopStep]
    omega
  | @dispatch m rest hphase hmsgs =>
    have hsum := sum_due_handleMessage { x with msgs := rest } m
    obtain ⟨-, _, _, _, heq⟩ := handleMessage_frame { x with msgs := rest } m
    rw [due_at hphase, due_at (x := handleMessage { x with msgs := rest } m) (p := .top) (by
      rw [heq]; exact hphase)]
    rw [show (handleMessage { x with msgs := rest } m).msgs = rest by rw [heq], hmsgs]
    simp only [Phase.dueMessage, List.length_cons, loopStep] at hsum ⊢
    omega
  | goto hg => exact hg.pays hc hstep
  | retain hp =>
    rcases hp with hp | hp
    · refine pays_phase hp rfl rfl rfl (top_dueMessage_le _) ?_
      simp only [Phase.due, passAgain_true, List.length_nil, loopStep]
      omega
    · refine pays_phase hp rfl rfl rfl (top_dueMessage_le _) ?_
      simp only [Phase.due, passAgain_true, List.length_nil, loopStep]
      omega
  | @acked i rest nr fr config q hp _ _ _ =>
    have hcur := due_xmitted (hc.current (Or.inl ⟨_, _, hp⟩))
    have hself : ((released x i config q).slices i).due = 0 := by
      rw [released_slices_self]
      exact due_of_ne (by simp)
    refine pays_slot hp rfl rfl le_rfl (fun j hj => released_slices_of_ne x config q hj) ?_
    have hfr := passAgain_le fr
    show _ + ((released x i config q).slices i).due + 1 ≤ _
    rw [hself, hcur]
    simp only [Phase.due, passAgain_true, List.length_cons]
    omega
  | @rexmit i rest fl map good ds hp _ =>
    cases hneed : (x.slices i).needRxmit with
    | true =>
      have hcur := hc.current (Or.inr (Or.inl ⟨_, hp⟩))
      refine pays_slot (i := i) hp rfl rfl le_rfl (fun j hj =>
        modify_slices_of_ne x i (fun s => s.rexmitted map good) hj) ?_
      show _ + ((x.modify i fun s => s.rexmitted map good).slices i).due + 1 ≤ _
      have hfl := passAgain_le fl
      rw [modify_slices_self, due_xmitted hcur, due_xmitted (s := (x.slices i).rexmitted map good) hcur,
        hneed]
      simp only [Phase.due, passAgain_true, List.length_cons, Slice.rexmitted, passAgain_false]
      omega
    | false =>
      have heq : step x .advance = some { x with phase := .rexmitting rest fl } := by
        show advance x = _
        rw [advance, hp]
        exact if_neg (by simp [hneed])
      rw [← Option.some.inj (heq.symm.trans hstep)]
      exact (Goto.complete hp hneed).pays hc heq
  | @reqack i rest nr fr rxmitId hp _ =>
    refine pays_slot (i := i) hp rfl rfl le_rfl (fun j hj => by
      show (requested (bumped x i rxmitId) i).slices j = _
      rw [requested_slices_of_ne _ hj, bumped_slices_of_ne _ _ hj]) ?_
    have hslot := due_requested x i rxmitId
    show _ + ((requested (bumped x i rxmitId) i).slices i).due + 1 ≤ _
    simp only [Phase.due, List.length_cons]
    omega
  | asyncRound h => exact absurd h hc.not_asyncRound
  | @form pos bytes m data hp _ _ hfree _ _ _ =>
    refine pays_slot (q := (formed x pos bytes data).phase) hp rfl rfl ?_
      (fun j hj => formed_slices_of_ne x bytes data hj) ?_
    · exact dueMessage_le _
    · have hphase : (formed x pos bytes data).phase.due ≤ 64 := by
        show (if x.config.hasFlag flagFec ∧ bytes > 0 then Phase.encoding pos else .sending pos).due ≤ 64
        split
        · exact le_rfl
        · exact Nat.le_succ 63
      have hself : ((formed x pos bytes data).slices pos).due = 0 := by
        rw [formed_slices_self]
        exact due_of_ne (by simp [Slice.formed])
      have hevent : event x .advance (formed x pos bytes data) = 1 := by
        show 0 + ((x.cuts ++ [bytes]).length - x.cuts.length) = 1
        rw [List.length_append, List.length_singleton]
        omega
      rw [hself, hevent, show Phase.forming.due = 3 from rfl, loopStep]
      omega
  | finish hp =>
    refine pays_phase (q := .returned) hp rfl rfl rfl le_rfl ?_
    simp only [Phase.due, loopStep]
    omega
  | @encode i fecData hp _ =>
    refine pays_slot (i := i) hp rfl rfl le_rfl (fun j hj =>
      modify_slices_of_ne x i (fun s => { s with fecData := fecData }) hj) ?_
    show _ + ((x.modify i fun s => { s with fecData := fecData }).slices i).due + 1 ≤ _
    have hself : ({ x.slices i with fecData := fecData } : Slice).due = (x.slices i).due :=
      Slice.due_congr rfl rfl
    rw [modify_slices_self, hself]
    simp only [Phase.due]
    omega
  | @transmit i ds hp _ _ =>
    refine pays_slot (i := i) hp rfl rfl (top_dueMessage_le _) (fun j hj => ?_) ?_
    · show (requested (transmitted x i ds) i).slices j = _
      rw [requested_slices_of_ne _ hj, transmitted_slices_of_ne _ _ hj]
    · show _ + ((requested (transmitted x i ds) i).slices i).due + 1 ≤ _
      rw [requested_slices_self, transmitted_slices_self, due_xmitted rfl]
      simp only [Phase.due, Slice.nextRound, passAgain_false]
      omega
  | @transmitAsync i ds config q hp _ _ _ _ =>
    refine pays_slot (i := i) hp rfl rfl (top_dueMessage_le _)
      (fun j hj => released_slices_of_ne (x.send ds) config q hj) ?_
    show _ + ((released (x.send ds) i config q).slices i).due + 1 ≤ _
    rw [released_slices_self, due_of_ne (by simp)]
    simp only [Phase.due]
    omega
  | @timeout i rest rxmitId hp _ =>
    refine pays_slot (i := i) hp rfl rfl (top_dueMessage_le _) (fun j hj => ?_) ?_
    · show (requested (bumped { x with db := afterDrop x i } i rxmitId) i).slices j = _
      rw [requested_slices_of_ne _ hj, bumped_slices_of_ne _ _ hj]
    · have hslot := due_requested { x with db := afterDrop x i } i rxmitId
      show _ + ((requested (bumped { x with db := afterDrop x i } i rxmitId) i).slices i).due + 0 ≤ _
      simp only [Phase.due, event] at hslot ⊢
      omega
  | allDropped hp _ =>
    refine pays_phase (q := .returned) hp rfl rfl rfl le_rfl ?_
    simp only [Phase.due, loopStep]
    omega
  | readerWait _ hw =>
    rcases readerWait_frame hw with rfl | ⟨_, _, rfl⟩
    · exact Nat.le_add_right _ _
    · exact Nat.le_add_right _ _
  | readEnd _ => exact Nat.le_add_right _ _
  | read _ _ => exact Nat.le_add_right _ _
  | readerConsumed _ _ => exact Nat.le_add_right _ _
  | readerWrite _ _ => exact Nat.le_add_right _ _
  | readerProduced _ _ => exact Nat.le_add_right _ _

end Due

theorem due_start {config : NetConfig} {db : ParticipantsDb} {x : Sender}
    (h : Sender.start config db = some x) : x.due = 31 := by
  simp only [Sender.start, Option.bind_eq_bind, Option.bind_eq_some_iff] at h
  obtain ⟨fifo, -, nrFec, -, c₁, -, c₂, -, h⟩ := h
  obtain rfl := Option.some.inj h
  rfl

/-- In every run of the sender the main loop takes at most 31 steps, and 64 more for each message
that it gets, each timeout and each slice. -/
theorem loop_bounded (config : NetConfig) (db : ParticipantsDb) (x₀ x : Sender) (steps events : ℕ)
    (hstart : Sender.start config db = some x₀)
    (hrun : Run.Reach (Run.observe step (Run.account loopStep event)) (fun _ _ => True) (x₀, 0, 0)
      (x, steps, events)) :
    steps ≤ 31 + 64 * events := by
  have hpaid := hrun.paid (P := fun _ _ => True) (I := Control) (Φ := Sender.due) (k := 64)
    (control_start hstart) (fun _ _ _ hc _ hs => hc.step (step_cases hs))
    (fun _ _ _ hc _ hs => (step_cases hs).pays hc hs)
  rw [due_start hstart] at hpaid
  dsimp only at hpaid
  omega

/-- An input of one byte is sent to two participants, the first of which sends an OK. -/
theorem loop_bounded_oneOk : ∃ x : Sender, x.phase = .waiting ∧ 24 ≤ 31 + 64 * 2 := by
  have hexec : ((Sender.start halfDuplex twoParticipants).bind fun x =>
      Run.exec (Run.observe step (Run.account loopStep event)) (fun _ _ => True) (x, 0, 0)
        (sendOne ++ List.replicate 8 .advance ++ message (.ok 0 0) ++ [.wake, .dispatch] ++
          List.replicate 8 .advance)).map
      (fun p => decide (p.1.phase = .waiting ∧ p.2 = (24, 2))) = some true := by decide +kernel
  obtain ⟨⟨x, sums⟩, hp, hseen⟩ := Option.map_eq_some_iff.mp hexec
  obtain ⟨x₀, hstart, hrun⟩ := Option.bind_eq_some_iff.mp hp
  obtain ⟨hwait, hsums⟩ := of_decide_eq_true hseen
  dsimp only at hwait hsums
  subst hsums
  exact ⟨x, hwait, loop_bounded halfDuplex twoParticipants x₀ x 24 2 hstart
    (Run.reach_of_exec hrun)⟩

end Udpcast.SendData
