import Udpcast.EndToEnd
import Udpcast.ReceiveData.Answers
import Udpcast.SendData.Returns

/-!
# The sender waits for its receivers

In half-duplex mode no receiver that is in the table of the participants is more than one slice
behind: it has all slices that the sender has freed.  Its OKs are then true, and when the main loop
of the sender is left it has the whole input.
-/

namespace Udpcast.EndToEnd

open ReceiveData SendData

/-- An OK that reaches the sender has been sent by its receiver. -/
def Answered (s : System) : Action → Prop
  | .sender (.arrive (.ok n cl)) => ∃ r ∈ s.receivers cl, ReceiveData.Event.ok n ∈ r.trace
  | _ => True

/-- No OK of a removed participant is counted, and none is dropped whose OK has been counted. -/
def Counted (s : System) : Action → Prop
  | .sender a => VotesValid s.sender a
  | _ => True

/-- Slice `n` has been cut and freed. -/
structure Settled (x : Sender) (n : ℤ) : Prop where
  nonneg : 0 ≤ n
  lt : n < x.cuts.length
  free : ∀ i, (x.slices i).inFlight → (x.slices i).sliceNo ≠ n

/-- Receiver `cl` has joined, and has the blocks of slice `n`. -/
def Has (s : System) (cl : ℕ) (n : ℤ) : Prop := ∃ r, s.receivers cl = some r ∧ Available r n

structure Lockstep (s : System) : Prop where
  together : Together s
  votes : Votes s.sender
  finished : Finished s.sender
  record : ∀ cl r, s.receivers cl = some r → Consistent r ∧ CompletingUsed r
  sound : ∀ cl r, s.receivers cl = some r → s.sender.db.isParticipantValid cl = true → OksSound r
  caught : ∀ cl, s.sender.db.isParticipantValid cl = true → ∀ n, Settled s.sender n → Has s cl n
  counted : ∀ i cl, (s.sender.slices i).inFlight → (s.sender.slices i).readySet.getLsbD cl = true →
    Has s cl (s.sender.slices i).sliceNo
  queued : ∀ n cl, s.sender.arrived (.ok n cl) → Has s cl n

section Lockstep

variable {s s' : System} {a : Action}

/-! ### A receiver -/

/-- A receiver in the table has the slices before the one that arrived last. -/
theorem Lockstep.recorded (h : Lockstep s) {cl : ℕ} {r : Receiver} (hr : s.receivers cl = some r)
    (hvalid : s.sender.db.isParticipantValid cl = true) {n : ℤ} (h0 : 0 ≤ n) (hlt : n < s.last cl) :
    r.completed n = true := by
  obtain ⟨t, hsends⟩ := h.together.faithful.sends
  have hturns := h.together.turns cl r hr t hsends.blockSize hsends.whole
    (h.together.faithful.carries hsends)
  have hlast := h.together.last cl
  have hsettled : Settled s.sender n := by
    refine ⟨h0, by omega, fun j hj heq => ?_⟩
    have hcut := h.together.faithful.alone.last j hj
    omega
  obtain ⟨q, hq, havail⟩ := h.caught cl hvalid n hsettled
  obtain rfl := Option.some.inj (hr.symm.trans hq)
  rcases havail with ⟨j, hj, rfl⟩ | hdone | ⟨j, b, hphase, -, hno, -⟩
  · exact hturns.consistent.done j hj
  · exact hdone
  · have heq : (r.slices j).sliceNo = s.last cl := hturns.inTurn.completing j hphase
    omega

/-- A receiver in the table can have a slot: only the slice that arrived last can be incomplete. -/
theorem Lockstep.freeSlot_ne_none (h : Lockstep s) {cl : ℕ} {r : Receiver}
    (hr : s.receivers cl = some r) (hvalid : s.sender.db.isParticipantValid cl = true) :
    freeSlot r ≠ none := by
  intro hnone
  have hreceiving := freeSlot_eq_none.mp hnone
  obtain ⟨t, hsends⟩ := h.together.faithful.sends
  have hturns := h.together.turns cl r hr t hsends.blockSize hsends.whole
    (h.together.faithful.carries hsends)
  have hlast : ∀ i, (r.slices i).sliceNo = s.last cl := by
    intro i
    have hle : (r.slices i).sliceNo ≤ s.last cl := hturns.inTurn.used i (by simp [hreceiving i])
    have hnonneg : 0 ≤ (r.slices i).sliceNo :=
      (hturns.sized.isSlice i (by simp [hreceiving i])).1
    by_contra hearlier
    have hdone := h.recorded hr hvalid hnonneg (by omega)
    rw [hturns.inTurn.fresh i (hreceiving i)] at hdone
    cases hdone
  have hsame := hturns.consistent.unique 0 1 (by simp [hreceiving 0]) (by simp [hreceiving 1])
    ((hlast 0).trans (hlast 1).symm)
  exact absurd hsame (by decide)

theorem Lockstep.noSlotOk_eq (h : Lockstep s) {cl : ℕ} {a : ReceiveData.Action} {r : Receiver}
    (hr : s.receivers cl = some r) (hvalid : s.sender.db.isParticipantValid cl = true) :
    noSlotOk r a = none := by
  have hfree := h.freeSlot_ne_none hr hvalid
  cases a with
  | receive top now d =>
    cases d with
    | reqack m =>
      rw [noSlotOk]
      exact if_neg fun hcond => hfree hcond.2.1
    | data _ _ => rfl
    | fec _ _ => rfl
    | skipped => rfl
    | unexpected => rfl
  | seed => rfl
  | expire _ => rfl
  | complete => rfl
  | scan _ => rfl
  | write => rfl
  | writeConsumed => rfl
  | writeProduced => rfl

theorem Lockstep.update (h : Lockstep s) {cl : ℕ} {r : Receiver} {last : ℤ}
    (htogether : Together { s with
      receivers := Function.update s.receivers cl (some r)
      last := Function.update s.last cl last })
    (hrecord : Consistent r ∧ CompletingUsed r)
    (hsound : s.sender.db.isParticipantValid cl = true → OksSound r)
    (havailable : ∀ n, Has s cl n → Available r n) :
    Lockstep { s with
      receivers := Function.update s.receivers cl (some r)
      last := Function.update s.last cl last } := by
  have hhas : ∀ k n, Has s k n → Has { s with
      receivers := Function.update s.receivers cl (some r)
      last := Function.update s.last cl last } k n := by
    intro k n hn
    apply exists_update _ hn
    exact fun q hq hn => havailable n ⟨q, hq, hn⟩
  refine
    { together := htogether
      votes := h.votes
      finished := h.finished
      record := fun k q hq => ?_
      sound := fun k q hq hk => ?_
      caught := fun k hk n hn => hhas k n (h.caught k hk n hn)
      counted := fun i k hi hk => hhas k _ (h.counted i k hi hk)
      queued := fun n k hm => hhas k n (h.queued n k hm) }
  · rcases update_eq_some hq with ⟨-, rfl⟩ | ⟨-, hq⟩
    · exact hrecord
    · exact h.record k q hq
  · rcases update_eq_some hq with ⟨rfl, rfl⟩ | ⟨-, hq⟩
    · exact hsound hk
    · exact h.sound k q hq hk

theorem Lockstep.receiver (h : Lockstep s) {cl : ℕ} {a : ReceiveData.Action} {r r' : Receiver}
    (hd : Delivers s (.receiver cl a)) (hr : s.receivers cl = some r)
    (hs : ReceiveData.step r a = some r') :
    Lockstep { s with
      receivers := Function.update s.receivers cl (some r')
      last := Function.update s.last cl (seeNo r a r' (s.last cl)) } := by
  obtain ⟨hc, hused⟩ := h.record cl r hr
  have hstep := ReceiveData.step_cases hs
  apply h.update (h.together.receiver hd hr hs)
  · exact ⟨hc.change (hstep.change hused), hstep.completingUsed hused⟩
  · intro hvalid
    exact (h.sound cl r hr hvalid).step hc hused (h.noSlotOk_eq hr hvalid) hstep
  · rintro n ⟨q, hq, hn⟩
    obtain rfl := Option.some.inj (hr.symm.trans hq)
    exact hn.step hc hused hstep

/-- A receiver that comes in has sent no OK, so that no slice has been freed while its number was in
the table. -/
theorem Lockstep.join (h : Lockstep s) {cl exitWait : ℕ} {heard : List Datagram} {fifo : Fifo}
    (hd : Delivers s (.join cl exitWait heard)) (hr : s.receivers cl = none)
    (hfifo : Fifo.new s.sender.config.blockSize = some fifo) :
    Lockstep { s with
      receivers := Function.update s.receivers cl (some (Receiver.start s.sender.config.blockSize
        exitWait (Negotiate.noted (heard.filterMap Negotiate.overheardOf)) fifo))
      last := Function.update s.last cl (lastHeard heard) } := by
  apply h.update (h.together.join hd hfifo)
  · exact ⟨consistent_start _ _ _ _, completingUsed_start _ _ _ _⟩
  · intro _ n hn
    exact absurd hn List.not_mem_nil
  · rintro n ⟨q, hq, -⟩
    rw [hr] at hq
    cases hq

/-! ### The sender -/

theorem sliceNo_of_moves {x x' : Sender} {a : SendData.Action} (hm : Moves x a x') {i : Fin 8}
    (hi : (x.slices i).inFlight) (hi' : (x'.slices i).inFlight) :
    (x'.slices i).sliceNo = (x.slices i).sliceNo := by
  cases hm with
  | kept _ hkeep _ _ _ _ _ _ _ _ _ => exact (hkeep i hi').2.1
  | @formed pos bytes m amount data hfree _ _ heq =>
    have hne : i ≠ pos := by
      rintro rfl
      rw [Slice.inFlight, hfree] at hi
      rcases hi with hi | hi
      · cases hi
      · cases hi
    rw [heq, formed_slices_of_ne _ _ _ hne]
  | wrote _ _ heq => rw [heq]

theorem inFlight_of_cut {x x' : Sender} {a : SendData.Action} (hm : Moves x a x') (hcut : Cut x)
    {n : ℤ} (hge : x.cuts.length ≤ n) (hlt : n < x'.cuts.length) :
    ∃ i, (x'.slices i).inFlight ∧ (x'.slices i).sliceNo = n := by
  cases hm with
  | kept _ _ hcuts _ _ _ _ _ _ _ _ =>
    rw [hcuts] at hlt
    omega
  | @formed pos bytes m amount data _ _ _ heq =>
    rw [heq] at hlt ⊢
    change n < ((x.cuts ++ [bytes]).length : ℤ) at hlt
    rw [List.length_append, List.length_singleton] at hlt
    refine ⟨pos, ?_⟩
    rw [formed_slices_self]
    refine ⟨Or.inl rfl, ?_⟩
    show x.sliceNo = n
    rw [hcut.next]
    omega
  | wrote _ _ heq =>
    rw [heq] at hlt
    change n < (x.cuts.length : ℤ) at hlt
    omega

theorem Lockstep.sender (h : Lockstep s) {a : SendData.Action} {x : Sender}
    (ha : Answered s (.sender a)) (hv : VotesValid s.sender a)
    (hs : SendData.step s.sender a = some x) : Lockstep { s with sender := x } := by
  have hstep := SendData.step_cases hs
  have hsound := h.together.faithful.sound
  have hm := hstep.moves hsound.control
  have htally := hstep.tally hsound.control h.votes.nonAsync
  obtain ⟨F, R, P, D, hq⟩ := hsound.queues
  refine
    { together := h.together.sender hs
      votes := h.votes.step hsound.control hv hstep
      finished := h.finished.step hsound.control hq h.votes.nonAsync hs
      record := h.record
      sound := fun cl r hr hcl => h.sound cl r hr (htally.valid cl hcl)
      caught := fun cl hcl n hn => ?_
      counted := fun i cl hi hcl => ?_
      queued := fun n cl hm => ?_ }
  · have hcl' := htally.valid cl hcl
    by_cases hlt : n < s.sender.cuts.length
    · by_cases hflight : ∃ i, (s.sender.slices i).inFlight ∧ (s.sender.slices i).sliceNo = n
      · -- it is freed in this step, with an OK from every participant
        obtain ⟨i, hi, rfl⟩ := hflight
        have hfreed : ¬(x.slices i).inFlight := fun hi' =>
          hn.free i hi' (sliceNo_of_moves hm hi hi')
        have hready := h.votes.all_ready ((hsound.control.inFlight_iff i).mp hi)
          (htally.freed i hi hfreed)
        refine h.counted i cl hi ?_
        rw [← Bitmap.mem_bits, hready, Bitmap.mem_bits]
        exact hcl'
      · refine h.caught cl hcl' n ⟨hn.nonneg, hlt, fun i hi heq => ?_⟩
        exact hflight ⟨i, hi, heq⟩
    · obtain ⟨i, hi, hno⟩ := inFlight_of_cut hm hsound.cut (not_lt.mp hlt) hn.lt
      exact absurd hno (hn.free i hi)
  · change Has s cl (x.slices i).sliceNo
    rcases htally.ready i cl hi hcl with ⟨hi', hcl'⟩ | hhead
    · rw [sliceNo_of_moves hm hi' hi]
      exact h.counted i cl hi' hcl'
    · exact h.queued _ cl (Or.inl (List.mem_of_mem_head? hhead))
  · rcases hstep.arrived hsound.control hm with hm | rfl
    · exact h.queued n cl hm
    · -- the receiver was in the table when its OK arrived
      have hvalid : s.sender.db.isParticipantValid cl = true := by
        cases hstep with
        | arrive _ hvalid => exact hvalid
        | goto hgoto =>
          cases hgoto with
          | woken _ hor =>
            rcases hor with hor | ⟨hor, -⟩
            · cases hor
            · cases hor
        | asyncRound hasync => exact absurd hasync hsound.control.not_asyncRound
      obtain ⟨r, hr, hn⟩ := ha
      exact ⟨r, hr, h.sound cl r hr hvalid n hn⟩

theorem Lockstep.step (h : Lockstep s) (hd : Delivers s a) (ha : Answered s a) (hv : Counted s a)
    (hs : EndToEnd.step s a = some s') : Lockstep s' := by
  cases stepped hs with
  | sender hx => exact h.sender ha hv hx
  | receiver hr hr' => exact h.receiver hd hr hr'
  | join hr hfifo => exact h.join hd hr hfifo

end Lockstep

theorem lockstep_start {config : NetConfig} {db : ParticipantsDb} {x : Sender}
    (hfit : HalfDuplexFit config) (hasync : config.hasFlag flagAsync = false)
    (hstart : Sender.start config db = some x) : Lockstep (System.start x) := by
  have hcuts : x.cuts = [] := start_cuts hstart
  have hnone : ∀ i, ¬(x.slices i).inFlight := fun i hi => by
    have hlast := (alone_start hfit.one hstart).last i hi
    have h0 := ((cut_start hstart).slot i hi).1
    rw [hcuts] at hlast
    change _ = ((0 : ℕ) : ℤ) at hlast
    omega
  refine
    { together := together_start hfit hstart
      votes := votes_start hstart hasync
      finished := finished_start hstart
      record := fun cl r hr => by cases hr
      sound := fun cl r hr => by cases hr
      caught := fun cl _ n hn => ?_
      counted := fun i cl hi _ => absurd hi (hnone i)
      queued := fun n cl hm => ?_ }
  · have hlt := hn.lt
    have h0 := hn.nonneg
    change n < (x.cuts.length : ℤ) at hlt
    rw [hcuts] at hlt
    change n < ((0 : ℕ) : ℤ) at hlt
    omega
  · simp only [Sender.start, Option.bind_eq_bind, Option.bind_eq_some_iff] at hstart
    obtain ⟨fifo, -, nrFec, -, c₁, -, c₂, -, hstart⟩ := hstart
    obtain rfl := Option.some.inj hstart
    rcases hm with hm | hm
    · cases hm
    · cases hm

/-- The conditions on the path and on the votes. -/
def Fair (s : System) (a : Action) : Prop := Delivers s a ∧ Answered s a ∧ Counted s a

/-- The same for packets that are cut to the buffers of the receivers. -/
def FairReads (s : System) (a : Action) : Prop := Reads s a ∧ Answered s a ∧ Counted s a

theorem lockstep_of_run {config : NetConfig} {db : ParticipantsDb} {x₀ : Sender} {s : System}
    (hfit : HalfDuplexFit config) (hasync : config.hasFlag flagAsync = false)
    (hstart : Sender.start config db = some x₀) (hrun : Run.Reach step Fair (System.start x₀) s) :
    Lockstep s :=
  hrun.invariant (I := Lockstep) (lockstep_start hfit hasync hstart)
    fun _ _ _ hi ⟨hd, ha, hv⟩ hs => hi.step hd ha hv hs

theorem fair_of_reads {config : NetConfig} {db : ParticipantsDb} {x₀ : Sender} {s : System}
    (hblock : config.blockSize ≤ 4080) (hstart : Sender.start config db = some x₀)
    (hrun : Run.Reach step FairReads (System.start x₀) s) : Run.Reach step Fair (System.start x₀) s :=
  hrun.mono_of_invariant (whole_start hblock hstart) (fun _ _ _ h _ hs => h.step hs)
    fun _ _ h ⟨hreads, hvotes⟩ => ⟨h.delivers hreads, hvotes⟩

theorem endNo_lt_of_zero {t : Transfer} {x : Sender} (h : Sends t x) (hzero : 0 ∈ x.cuts) :
    t.endNo < x.cuts.length := by
  by_contra hge
  obtain ⟨k, hk, hcut⟩ := List.mem_iff_getElem.mp hzero
  have hsize := h.size k (Int.natCast_nonneg k)
  rw [Int.toNat_natCast, List.getD_eq_getElem _ _ hk, hcut] at hsize
  have hpos := (t.size_pos_iff (Int.natCast_nonneg k)).mpr (by omega)
  omega

/-- A receiver that has all slices, of which the last is empty, has the whole input. -/
theorem Lockstep.complete {s : System} (h : Lockstep s) {cl : ℕ} {r : Receiver}
    (hr : s.receivers cl = some r) (hzero : 0 ∈ s.sender.cuts)
    (hall : ∀ n : ℤ, 0 ≤ n → n < s.sender.cuts.length → Available r n)
    (hidle : ∀ i, r.phase ≠ .completing i) : r.atEnd = true ∧ r.passed = s.sender.input := by
  obtain ⟨t, hsends⟩ := h.together.faithful.sends
  have hturns := h.together.turns cl r hr t hsends.blockSize hsends.whole
    (h.together.faithful.carries hsends)
  have hmarker := endNo_lt_of_zero hsends hzero
  have hrecord : ∀ n : ℤ, 0 ≤ n → n ≤ t.endNo → r.completed n = true := by
    intro n hn hle
    rcases hall n hn (by omega) with ⟨i, hi, rfl⟩ | hdone | ⟨i, b, hphase, -⟩
    · exact (h.record cl r hr).1.done i hi
    · exact hdone
    · exact absurd hphase (hidle i)
  have hend := hturns.atEnd_of_completed hrecord
  refine ⟨hend, ?_⟩
  rw [← (hsends.ended hmarker).2]
  exact hturns.passed_of_atEnd hend

/-- When the main loop has been left for another reason than that nobody is there, all slices have been
freed, the empty one too. -/
theorem Lockstep.returned {s : System} (h : Lockstep s) {cl : ℕ}
    (hret : s.sender.phase = .returned) (hvalid : s.sender.db.isParticipantValid cl = true) :
    ∃ r, s.receivers cl = some r ∧
      (∀ n : ℤ, 0 ≤ n → n < s.sender.cuts.length → Available r n) ∧
        ((∀ i, r.phase ≠ .completing i) → r.atEnd = true ∧ r.passed = s.sender.input) := by
  have hended : s.sender.atEnd = true ∧ s.sender.pending = [] := by
    rcases h.finished.returned hret with hended | hnone
    · exact hended
    · -- somebody is there
      rw [s.sender.db.nr_eq, Finset.card_eq_zero] at hnone
      have hmem := Bitmap.mem_bits.mpr hvalid
      rw [hnone] at hmem
      cases hmem
  have hfree : ∀ i, ¬(s.sender.slices i).inFlight := by
    have hc := h.together.faithful.sound.control
    rintro i (hnew | hsent)
    · rcases hc.new i hnew with hp | hp
      · rw [hret] at hp
        cases hp
      · rw [hret] at hp
        cases hp
    · have hmem := hc.xmitted i hsent
      rw [hended.2] at hmem
      cases hmem
  have hhas : ∀ n : ℤ, 0 ≤ n → n < s.sender.cuts.length → Has s cl n :=
    fun n h0 hlt => h.caught cl hvalid n ⟨h0, hlt, fun i hi => absurd hi (hfree i)⟩
  have hzero := h.finished.atEnd hended.1
  obtain ⟨r, hr, -⟩ := hhas 0 le_rfl (Int.natCast_pos.mpr (List.length_pos_of_mem hzero))
  have hall : ∀ n : ℤ, 0 ≤ n → n < s.sender.cuts.length → Available r n := by
    intro n h0 hlt
    obtain ⟨q, hq, hn⟩ := hhas n h0 hlt
    obtain rfl := Option.some.inj (hr.symm.trans hq)
    exact hn
  exact ⟨r, hr, hall, h.complete hr hzero hall⟩

instance (s : System) : (a : Action) → Decidable (Answered s a)
  | .sender (.arrive (.ok n cl)) =>
    inferInstanceAs (Decidable (∃ r ∈ s.receivers cl, ReceiveData.Event.ok n ∈ r.trace))
  | .sender (.arrive (.retransmit _ _ _ _)) | .sender (.arrive (.disconnect _)) | .sender .enqueue
  | .sender .dispatch | .sender .advance | .sender .wake | .sender .timeout | .sender .readerWait
  | .sender (.read _) | .sender .readerConsumed | .sender .readerWrite | .sender .readerProduced
  | .receiver _ _ | .join _ _ _ => inferInstanceAs (Decidable True)

instance (s : System) : (a : Action) → Decidable (Counted s a)
  | .sender a => inferInstanceAs (Decidable (VotesValid s.sender a))
  | .receiver _ _ | .join _ _ _ => inferInstanceAs (Decidable True)

instance (s : System) (a : Action) : Decidable (Fair s a) :=
  inferInstanceAs (Decidable (_ ∧ _ ∧ _))

instance (s : System) (a : Action) : Decidable (FairReads s a) :=
  inferInstanceAs (Decidable (_ ∧ _ ∧ _))

/-- Both receivers get a packet, and their OKs get to the sender. -/
def bothReceive (n : ℤ) (d : Datagram) : List Action :=
  ([0, 1].flatMap fun cl => [.receive 0 0 d, .complete, .scan 0].map (Action.receiver cl)) ++
    (message (.ok n 0) ++ message (.ok n 1)).map .sender

/-- The byte, the end marker, and the sender's return. -/
def oneByteToBoth : List Action :=
  [.join 0 500 [], .join 1 500 [], .receiver 0 .seed, .receiver 1 .seed] ++ sendOne.map .sender ++
    bothReceive 0 (.data ⟨0, 0, 1⟩ [7]) ++
    (List.replicate 2 SendData.Action.dispatch ++ List.replicate 9 SendData.Action.advance).map
      .sender ++
    bothReceive 1 (.reqack ⟨1, 0, 0⟩) ++
    ([SendData.Action.dispatch, .dispatch] ++ List.replicate 8 SendData.Action.advance).map .sender

theorem oneByteToBoth_run : ∃ x₀ s, Sender.start halfDuplex twoParticipants = some x₀ ∧
    Run.Reach step FairReads (System.start x₀) s ∧ s.sender.phase = .returned ∧
    s.sender.db.isParticipantValid 1 = true ∧ s.sender.input = [7] ∧ s.sender.cuts = [1, 0] ∧
    (∀ i, (s.sender.slices i).state = .free) ∧ ∀ r ∈ s.receivers 1, r.phase = .polling := by
  have hexec : ((Sender.start halfDuplex twoParticipants).bind fun x =>
      (Run.exec step FairReads (System.start x) oneByteToBoth).map fun s => (x, s)).map
      (fun p => decide (p.2.sender.phase = .returned ∧
        p.2.sender.db.isParticipantValid 1 = true ∧ p.2.sender.input = [7] ∧
        p.2.sender.cuts = [1, 0] ∧ (∀ i, (p.2.sender.slices i).state = .free) ∧
        ∀ r ∈ p.2.receivers 1, r.phase = .polling)) = some true := by decide +kernel
  obtain ⟨p, hp, hprop⟩ := Option.map_eq_some_iff.mp hexec
  obtain ⟨x₀, hstart, hp⟩ := Option.bind_eq_some_iff.mp hp
  obtain ⟨s, hs, rfl⟩ := Option.map_eq_some_iff.mp hp
  exact ⟨x₀, s, hstart, Run.reach_of_exec hs, of_decide_eq_true hprop⟩

end Udpcast.EndToEnd
