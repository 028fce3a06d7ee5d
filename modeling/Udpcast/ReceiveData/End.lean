import Udpcast.ReceiveData.Table

/-!
# The end of the transfer

Two places decide about the end: `complete_slice` marks `fifo.data` when it runs for the end marker
and all earlier slices are on record, and the main loop arms the drain deadline when it finds a done
slot of zero bytes.
-/

namespace Udpcast.ReceiveData

open Receiver

/-- `produce_end` has been called for `fifo.data`. -/
def Receiver.atEnd (r : Receiver) : Bool := r.fifo.data.inner.atEnd

/-- `complete_slice` runs for a slot of zero bytes, with all earlier slices on record. -/
def Ends (r : Receiver) (i : Fin 8) : Prop :=
  r.phase = .completing i ∧ (r.slices i).state ≠ .done ∧ (r.slices i).bytes = 0 ∧
    ∀ s, 0 ≤ s → s < (r.slices i).sliceNo → r.completed s = true

/-- The end is marked in one place only. -/
theorem StepTo.atEnd_iff {r r' : Receiver} {a : Action} (h : StepTo r a r') :
    r'.atEnd = true ↔ r.atEnd = true ∨ ∃ i, a = .complete ∧ Ends r i := by
  have hsame : r'.atEnd = r.atEnd → a ≠ .complete →
      (r'.atEnd = true ↔ r.atEnd = true ∨ ∃ i, a = .complete ∧ Ends r i) := by
    intro heq ha
    rw [heq]
    exact ⟨Or.inl, fun h => h.resolve_right fun ⟨_, hc, _⟩ => ha hc⟩
  cases h with
  | seeded _ => exact hsame rfl (by simp)
  | seedNoSlot _ _ => exact hsame rfl (by simp)
  | @seed s b x rest i r₁ _ hopen =>
    have hfifo : r₁.fifo = r.fifo := hopen.frame.2.2.2.1
    exact hsame (by rw [atEnd, atEnd, ← hfifo]; rfl) (by simp)
  | expire _ _ _ => exact hsame rfl (by simp)
  | skipped _ => exact hsame (by rw [atEnd, atEnd, ← armed_fifo r]) (by simp)
  | ignored _ _ _ => exact hsame (by rw [atEnd, atEnd, armed_fifo]) (by simp)
  | answered _ _ _ => exact hsame (by rw [atEnd, atEnd, emit_fifo, armed_fifo]) (by simp)
  | handled _ _ hopen _ hfill _ _ _ =>
    obtain ⟨_, hfifo⟩ := hfill.fifo
    exact hsame (by rw [atEnd, atEnd, hfifo, hopen.frame.2.2.2.1, armed_fifo]) (by simp)
  | @complete i r₁ hphase hfin =>
    have honly : (∃ j, Action.complete = .complete ∧ Ends r j) ↔ Ends r i := by
      constructor
      · rintro ⟨j, -, hj⟩
        have hij := hj.1
        rw [hphase] at hij
        injection hij with hij
        rwa [hij]
      · exact fun hi => ⟨i, rfl, hi⟩
    rw [honly]
    cases hfin with
    | already hdone => exact ⟨Or.inl, fun h => h.resolve_right fun hi => hi.2.1 hdone⟩
    | data q₁ q₂ _ _ hpos _ hq₂ =>
      have hend : q₂.inner.atEnd = r.atEnd := Produconsum.produce_atEnd hq₂
      show q₂.inner.atEnd = true ↔ _
      rw [hend]
      exact ⟨Or.inl, fun h => h.resolve_right fun hi => by have := hi.2.2.1; omega⟩
    | atEnd hdone _ hzero hall =>
      exact ⟨fun _ => Or.inr ⟨hphase, hdone, hzero, hall⟩, fun _ => rfl⟩
    | incomplete _ _ _ hmissing =>
      obtain ⟨s, hs, hlt, hnot⟩ := hmissing
      refine ⟨Or.inl, fun h => h.resolve_right fun hi => ?_⟩
      rw [hi.2.2.2 s hs hlt] at hnot
      cases hnot
  | scan _ =>
    refine hsame ?_ (by simp)
    rw [scanEnd]
    split
    · rfl
    · split
      · rfl
      · rfl
  | write _ hw =>
    obtain ⟨_, _, rfl⟩ := writeBlock_frame hw
    exact hsame rfl (by simp)
  | writeConsumed _ hq => exact hsame (Produconsum.consumed_atEnd hq) (by simp)
  | writeProduced _ _ => exact hsame rfl (by simp)

/-! ### The end marker -/

/-- `complete_slice` has run for every slice, the end marker included. -/
def AllCompleted (t : Transfer) (r : Receiver) : Prop :=
  ∀ s : ℤ, 0 ≤ s → s ≤ t.endNo → ∃ n, Event.completed s n ∈ r.trace

/-- The end marker completes when all data slices have completed. -/
def MarkerLast (t : Transfer) (trace : List Event) : Prop :=
  ∃ l, l ++ [.completed t.endNo 0] <+: trace ∧
    ∀ s : ℤ, 0 ≤ s → s < t.endNo → ∃ n, Event.completed s n ∈ l

section Marker

variable {t : Transfer} {r r' : Receiver} {a : Action}

theorem markerLast_concat {l : List Event} {e : Event} : MarkerLast t (l ++ [e]) ↔
    MarkerLast t l ∨ e = .completed t.endNo 0 ∧
      ∀ s : ℤ, 0 ≤ s → s < t.endNo → ∃ n, Event.completed s n ∈ l := by
  constructor
  · rintro ⟨l', hpre, hall⟩
    rcases List.prefix_concat_iff.mp hpre with heq | hpre
    · obtain ⟨rfl, he⟩ := List.append_inj' heq rfl
      exact Or.inr ⟨(List.singleton_injective he).symm, hall⟩
    · exact Or.inl ⟨l', hpre, hall⟩
  · rintro (⟨l', hpre, hall⟩ | ⟨rfl, hall⟩)
    · exact ⟨l', hpre.trans (List.prefix_append l [e]), hall⟩
    · exact ⟨l, List.prefix_rfl, hall⟩

theorem markerLast_append {l es : List Event} (hes : ∀ e ∈ es, e ≠ .completed t.endNo 0) :
    MarkerLast t (l ++ es) ↔ MarkerLast t l := by
  induction es generalizing l with
  | nil => rw [List.append_nil]
  | cons e es ih =>
    rw [List.append_cons, ih fun e' he' => hes e' (List.mem_cons_of_mem _ he'), markerLast_concat]
    exact ⟨fun h => h.resolve_right fun hm => hes e List.mem_cons_self hm.1, Or.inl⟩

/-- The end is marked exactly if the end marker has completed last. -/
theorem atEnd_iff_markerLast (hsized : Sized t r) (hc : Consistent r) (hused : CompletingUsed r)
    (h : r.atEnd = true ↔ MarkerLast t r.trace) (hs : StepTo r a r') :
    r'.atEnd = true ↔ MarkerLast t r'.trace := by
  rw [hs.atEnd_iff]
  have hdone : ∀ i, a = .complete → Ends r i → (r'.slices i).state = .done := by
    rintro i rfl hi
    exact hs.done hi.1
  cases hs.change hused with
  | kept _ hsame _ htrace =>
    obtain ⟨es, ht, hquiet⟩ := htrace
    rw [ht, markerLast_append fun e he => (hquiet e he).not_completed _ _, ← h]
    refine ⟨fun hor => hor.resolve_right fun ⟨i, ha, hi⟩ => ?_, Or.inl⟩
    exact hi.2.1 (by rw [← (hsame i).1, hdone i ha hi])
  | @claimed i s b hopens _ _ _ _ _ _ _ _ htrace =>
    obtain ⟨es, ht, hquiet⟩ := htrace
    rw [ht, markerLast_append fun e he => ?_, ← h]
    · refine ⟨fun hor => hor.resolve_right fun ⟨i, ha, hi⟩ => ?_, Or.inl⟩
      rw [ha] at hopens
      cases hopens
    · rcases List.mem_cons.mp he with rfl | he
      · simp
      · exact (hquiet e he).not_completed _ _
  | @completed i ha hphase hstate hno _ _ _ htrace =>
    have hbytes := hsized.bytes_receiving hstate
    have hslice := hsized.isSlice i (by simp [hstate])
    have hends : (∃ j, a = .complete ∧ Ends r j) ↔
        (r.slices i).bytes = 0 ∧ ∀ s, 0 ≤ s → s < (r.slices i).sliceNo → r.completed s = true := by
      constructor
      · rintro ⟨j, -, hj⟩
        have hij := hj.1
        rw [hphase] at hij
        injection hij with hij
        rw [hij]
        exact hj.2.2
      · rintro ⟨hzero, hall⟩
        exact ⟨i, ha, hphase, by simp [hstate], hzero, hall⟩
    rw [hends, htrace, List.append_cons, markerLast_append (by simp), markerLast_concat, ← h]
    refine or_congr_right ?_
    constructor
    · rintro ⟨hzero, hall⟩
      have hmarker : (r.slices i).sliceNo = t.endNo := by
        have hpos := t.size_pos_iff hno
        have hle := hslice.2.1
        omega
      rw [hmarker] at hall
      exact ⟨by rw [hmarker, hzero], fun s hs hlt => (hc.record s).mp (hall s hs hlt)⟩
    · rintro ⟨he, hall⟩
      injection he with hno' hzero
      rw [hno']
      exact ⟨hzero, fun s hs hlt => (hc.record s).mpr (hall s hs hlt)⟩

end Marker

/-- In every run on datagrams of a transfer: `fifo.data` is not marked at end before all slices have
completed, and when they have it is marked exactly if the end marker completed after the data
slices. -/
theorem produce_end_iff (t : Transfer) (r₀ r : Receiver) (hstart : Starts t r₀)
    (hrun : Run.Reach step (fun _ a => Genuine t a) r₀ r) :
    (r.atEnd = true → AllCompleted t r) ∧
      (AllCompleted t r → (r.atEnd = true ↔ MarkerLast t r.trace)) := by
  have hfresh : r₀.atEnd = true ↔ MarkerLast t r₀.trace := by
    obtain ⟨exitWait, late, fifo, rfl, hfifo, -⟩ := hstart
    rw [Fifo.new_eq t.blockSize_pos] at hfifo
    obtain rfl := Option.some.inj hfifo
    constructor
    · intro h
      cases h
    · rintro ⟨l, hpre, -⟩
      have hnil : l ++ [Event.completed t.endNo 0] = [] := List.prefix_nil.mp hpre
      simp at hnil
  obtain ⟨hend, -, -, -⟩ := hrun.invariant
    (I := fun r => (r.atEnd = true ↔ MarkerLast t r.trace) ∧ Sized t r ∧ Consistent r ∧
      CompletingUsed r)
    ⟨hfresh, sized_start hstart, consistent_of_starts hstart, completingUsed_of_starts hstart⟩
    fun s a s' ⟨hend, hsized, hc, hused⟩ hgen hs =>
      have hs' := step_cases hs
      ⟨atEnd_iff_markerLast hsized hc hused hend hs', hsized.step hused hgen hs',
        hc.change (hs'.change hused), hs'.completingUsed hused⟩
  refine ⟨fun hmarked s hs hle => ?_, fun _ => hend⟩
  obtain ⟨l, ⟨b, hb⟩, hall⟩ := hend.mp hmarked
  rw [← hb]
  rcases Int.lt_or_eq_of_le hle with hlt | rfl
  · obtain ⟨n, hn⟩ := hall s hs hlt
    exact ⟨n, List.mem_append_left _ (List.mem_append_left _ hn)⟩
  · exact ⟨0, List.mem_append_left _ (List.mem_append_right _ List.mem_cons_self)⟩

theorem allCompleted_tenSlices {r : Receiver}
    (hdata : ∀ s ∈ List.range 10, Event.completed s 2 ∈ r.trace)
    (hmarker : Event.completed 10 0 ∈ r.trace) : AllCompleted tenSlices r := by
  intro s hs hle
  have hend : tenSlices.endNo = 10 := rfl
  rw [hend] at hle
  rcases Int.lt_or_eq_of_le hle with hlt | rfl
  · have hmem := hdata s.toNat (List.mem_range.mpr (by omega))
    rw [Int.toNat_of_nonneg hs] at hmem
    exact ⟨2, hmem⟩
  · exact ⟨0, hmarker⟩

theorem produce_end_tenSlices : ∃ r : Receiver, AllCompleted tenSlices r ∧ r.atEnd = true := by
  have hexec : (Run.exec step (fun _ a => Genuine tenSlices a) tenSlicesStart
      (eachOnce 10 ++ [.receive 0 0 (.reqack ⟨10, 0, 0⟩), .complete])).map
      (fun r => decide (r.atEnd = true)) = some true := by decide +kernel
  obtain ⟨r, hr, hp⟩ := Run.exists_reach_of_exec hexec
  have hend := of_decide_eq_true hp
  exact ⟨r, (produce_end_iff tenSlices _ r tenSlicesStart_starts hr).1 hend, hend⟩

/-- The end marker completes before slice 9, of which the blocks are lost at first. -/
theorem produce_end_missed : ∃ r,
    Run.Reach step (fun _ a => Genuine tenSlices a) tenSlicesStart r ∧
      Starts tenSlices tenSlicesStart ∧ AllCompleted tenSlices r ∧ r.atEnd = false := by
  have hexec : (Run.exec step (fun _ a => Genuine tenSlices a) tenSlicesStart
      (eachOnce 9 ++ [.receive 0 0 (.reqack ⟨10, 0, 0⟩), .complete, .scan 0,
        block 9 0, .scan 0, block 9 1, .complete])).map
      (fun r => decide ((∀ s ∈ List.range 10, Event.completed s 2 ∈ r.trace) ∧
        Event.completed 10 0 ∈ r.trace ∧ r.atEnd = false)) = some true := by decide +kernel
  obtain ⟨r, hr, hp⟩ := Run.exists_reach_of_exec hexec
  obtain ⟨hdata, hmarker, hend⟩ := of_decide_eq_true hp
  exact ⟨r, hr, tenSlicesStart_starts, allCompleted_tenSlices hdata hmarker, hend⟩

/-! ### The drain deadline -/

/-- `complete_slice` does not run for a slot of zero bytes while an earlier slice is missing, and no
REQACK makes a done slot one of zero bytes, unless the end is marked. -/
def EndsComplete (r : Receiver) : Action → Prop
  | .complete => ∀ i, r.phase = .completing i → (r.slices i).state = .receiving →
      (r.slices i).bytes = 0 →
      r.atEnd = true ∨ ∀ j < (r.slices i).sliceNo.toNat, r.completed j = true
  | .receive _ _ (.reqack m) => asUsize m.bytes = 0 → ∀ i, (r.slices i).state = .done →
      (r.slices i).sliceNo = m.sliceNo → r.atEnd = true
  | _ => True

instance (r : Receiver) : (a : Action) → Decidable (EndsComplete r a)
  | .complete => inferInstanceAs (Decidable (∀ _, _))
  | .receive _ _ (.reqack _) => inferInstanceAs (Decidable (_ → ∀ _, _))
  | .receive _ _ (.data _ _) | .receive _ _ (.fec _ _) | .receive _ _ .skipped
  | .receive _ _ .unexpected => inferInstanceAs (Decidable True)
  | .seed | .expire _ | .scan _ | .write | .writeConsumed | .writeProduced =>
    inferInstanceAs (Decidable True)

/-- The main loop and `complete_slice` agree about the end. -/
structure Agrees (r : Receiver) : Prop where
  zero : ∀ i, (r.slices i).state = .done → (r.slices i).bytes = 0 → r.atEnd = true
  reached : r.endReached = true → r.atEnd = true
  armed : r.drainDeadline ≠ none → r.endReached = true
  returned : r.phase = .returned → r.atEnd = true
  /-- No slice is done while the table is seeded. -/
  seeding : ∀ late, r.phase = .seeding late → ∀ i, (r.slices i).state ≠ .done

section Drain

variable {r r' : Receiver} {a : Action}

theorem StepTo.atEnd_mono (h : StepTo r a r') (hend : r.atEnd = true) : r'.atEnd = true :=
  h.atEnd_iff.mpr (Or.inl hend)

theorem EndsComplete.zero (hends : EndsComplete r a) (hr : Agrees r)
    (hused : CompletingUsed r) (hs : StepTo r a r') (i : Fin 8) (hi : (r'.slices i).state = .done)
    (hzero : (r'.slices i).bytes = 0) : r'.atEnd = true := by
  -- a slot that was done before
  have hkept : SameSlot r a r' i → r'.atEnd = true := by
    rintro ⟨hstate, -, -, hbytes⟩
    rw [hstate] at hi
    rcases hbytes with hbytes | ⟨-, b, hbrings, hbytes, hsets⟩
    · rw [hbytes] at hzero
      exact hs.atEnd_mono (hr.zero i hi hzero)
    · cases a with
      | seed =>
        simp only [brings] at hbrings
        split at hbrings
        · rename_i hphase
          exact absurd hi (hr.seeding _ hphase i)
        · cases hbrings
      | receive top now d =>
        cases d with
        | reqack m =>
          obtain ⟨hno, hb⟩ := Prod.mk.inj (Option.some.inj hbrings)
          rw [hbytes, ← hb] at hzero
          exact hs.atEnd_mono (hends hzero i hi hno.symm)
        | data _ _ => simp [hi, Action.setsSize, Action.isReqack, Datagram.isReqack] at hsets
        | fec _ _ => simp [hi, Action.setsSize, Action.isReqack, Datagram.isReqack] at hsets
        | skipped => cases hbrings
        | unexpected => cases hbrings
      | expire _ => cases hbrings
      | complete => cases hbrings
      | scan _ => cases hbrings
      | write => cases hbrings
      | writeConsumed => cases hbrings
      | writeProduced => cases hbrings
  cases hs.change hused with
  | kept _ hsame _ _ => exact hkept (hsame i)
  | @claimed j s b _ _ _ hsame hstate _ _ _ _ _ =>
    by_cases hij : i = j
    · rw [hij, hstate] at hi
      cases hi
    · exact hkept (hsame i hij)
  | @completed j ha hphase hstate hno hother hself _ _ =>
    by_cases hij : i = j
    · subst hij
      rw [hself] at hzero
      subst ha
      rcases hends i hphase hstate hzero with hend | hall
      · exact hs.atEnd_mono hend
      · refine hs.atEnd_iff.mpr (Or.inr ⟨i, rfl, hphase, by simp [hstate], hzero, fun s h0 hlt => ?_⟩)
        have hj := hall s.toNat (by omega)
        rwa [Int.toNat_of_nonneg h0] at hj
    · exact hkept (SameSlot.of_eq (hother i hij))

/-- The end is reached, and the deadline first armed, where the scan finds a done slot of zero
bytes; the loop is left when the deadline has passed. -/
theorem StepTo.control (h : StepTo r a r') :
    (r'.endReached = r.endReached ∧ (r'.drainDeadline = r.drainDeadline ∨ r.endReached = true) ∨
      r'.endReached = true ∧ ∃ i, (r'.slices i).state = .done ∧ (r'.slices i).bytes = 0) ∧
    (r'.phase = .returned → r.phase = .returned ∨ r.drainDeadline ≠ none) := by
  have harmed : ∀ now, (armed r now).endReached = r.endReached ∧
      ((armed r now).drainDeadline = r.drainDeadline ∨ r.endReached = true) := by
    intro now
    rw [ReceiveData.armed]
    split
    · rename_i hend
      exact ⟨rfl, Or.inr hend⟩
    · exact ⟨rfl, Or.inl rfl⟩
  cases h with
  | seeded _ => exact ⟨Or.inl ⟨rfl, Or.inl rfl⟩, fun hp => by cases hp⟩
  | seedNoSlot _ _ => exact ⟨Or.inl ⟨rfl, Or.inl rfl⟩, fun hp => by cases hp⟩
  | seed _ hopen =>
    obtain ⟨-, -, -, -, -, -, -, hend, hdead⟩ := hopen.frame
    exact ⟨Or.inl ⟨hend, Or.inl hdead⟩, fun hp => by cases hp⟩
  | expire _ hdead _ =>
    exact ⟨Or.inl ⟨rfl, Or.inl rfl⟩, fun _ => Or.inr (by rw [hdead]; exact Option.some_ne_none _)⟩
  | @skipped top now _ => exact ⟨Or.inl (harmed now), fun hp => by cases hp⟩
  | @ignored top now _ _ _ _ =>
    refine ⟨Or.inl (harmed now), fun hp => ?_⟩
    rw [armed_phase] at hp
    cases hp
  | @answered top now _ _ _ _ =>
    refine ⟨Or.inl (harmed now), fun hp => ?_⟩
    rw [emit_phase, armed_phase] at hp
    cases hp
  | @handled top now _ _ _ _ _ _ _ _ hopen _ hfill _ _ _ =>
    obtain ⟨-, hphase, -, -, -, -, -, hend, hdead⟩ := hopen.frame
    obtain ⟨_, _, _, _, hrest⟩ := hfill.rest
    refine ⟨Or.inl ?_, fun hp => ?_⟩
    · rw [hrest]
      show _ = r.endReached ∧ (_ = r.drainDeadline ∨ _)
      rw [hend, hdead]
      exact harmed now
    · rcases hfill.phase with hp' | hp'
      · rw [hp', hphase, armed_phase] at hp
        cases hp
      · rw [hp'] at hp
        cases hp
  | complete _ hfin =>
    refine ⟨Or.inl ?_, fun hp => by cases hp⟩
    cases hfin with
    | already _ => exact ⟨rfl, Or.inl rfl⟩
    | data _ _ _ _ _ _ _ => exact ⟨rfl, Or.inl rfl⟩
    | atEnd _ _ _ _ => exact ⟨rfl, Or.inl rfl⟩
    | incomplete _ _ _ _ => exact ⟨rfl, Or.inl rfl⟩
  | scan _ =>
    rw [scanEnd]
    split
    · exact ⟨Or.inl ⟨rfl, Or.inl rfl⟩, fun hp => by cases hp⟩
    · split
      · rename_i hany
        obtain ⟨i, -, hi⟩ := List.any_eq_true.mp hany
        exact ⟨Or.inr ⟨rfl, i, of_decide_eq_true hi⟩, fun hp => by cases hp⟩
      · exact ⟨Or.inl ⟨rfl, Or.inl rfl⟩, fun hp => by cases hp⟩
  | write _ hw =>
    obtain ⟨_, _, rfl⟩ := writeBlock_frame hw
    exact ⟨Or.inl ⟨rfl, Or.inl rfl⟩, Or.inl⟩
  | writeConsumed _ _ => exact ⟨Or.inl ⟨rfl, Or.inl rfl⟩, Or.inl⟩
  | writeProduced _ _ => exact ⟨Or.inl ⟨rfl, Or.inl rfl⟩, Or.inl⟩

theorem Agrees.step (hr : Agrees r) (hused : CompletingUsed r) (hends : EndsComplete r a)
    (hs : StepTo r a r') : Agrees r' := by
  obtain ⟨hcontrol, hreturned⟩ := hs.control
  have hzero := hends.zero hr hused hs
  refine ⟨hzero, fun hend => ?_, fun hdead => ?_, fun hp => ?_, fun late hp i hi => ?_⟩
  · rcases hcontrol with ⟨hsame, -⟩ | ⟨-, i, hdone, h0⟩
    · exact hs.atEnd_mono (hr.reached (hsame ▸ hend))
    · exact hzero i hdone h0
  · rcases hcontrol with ⟨hsame, hd | hend⟩ | ⟨hend, -⟩
    · rw [hsame]
      exact hr.armed (hd ▸ hdead)
    · rw [hsame, hend]
    · exact hend
  · rcases hreturned hp with hp' | hdead
    · exact hs.atEnd_mono (hr.returned hp')
    · exact hs.atEnd_mono (hr.reached (hr.armed hdead))
  · obtain ⟨late₀, hp₀, -⟩ := hs.seeding hp
    cases hs.change hused with
    | kept _ hsame _ _ =>
      rw [(hsame i).1] at hi
      exact hr.seeding late₀ hp₀ i hi
    | @claimed j _ _ _ _ _ hsame hstate _ _ _ _ _ =>
      by_cases hij : i = j
      · rw [hij, hstate] at hi
        cases hi
      · rw [(hsame i hij).1] at hi
        exact hr.seeding late₀ hp₀ i hi
    | completed _ hphase _ _ _ _ _ _ =>
      rw [hphase] at hp₀
      cases hp₀

/-- From the scan on, a done slot of zero bytes ends the main loop. -/
theorem returns_of_zero {i : Fin 8} (hphase : r.phase = .scanning) (hi : (r.slices i).state = .done)
    (hzero : (r.slices i).bytes = 0) (hreached : r.endReached = false) (hend : r.atEnd = false) :
    ∃ r', Run.Reach step (fun _ _ => True) r r' ∧ r'.phase = .returned ∧ r'.atEnd = false := by
  have hany : ((List.finRange 8).any fun i =>
      decide ((r.slices i).state = .done ∧ (r.slices i).bytes = 0)) = true :=
    List.any_eq_true.mpr ⟨i, List.mem_finRange i, decide_eq_true ⟨hi, hzero⟩⟩
  have hscan : step r (.scan 0) = some
      { r with phase := .polling, endReached := true, drainDeadline := some (0 + r.exitWait) } := by
    show (if r.phase = .scanning then some (scanEnd r 0) else none) = _
    rw [if_pos hphase, scanEnd, if_neg (by simp [hreached]), if_pos hany]
  refine ⟨_, Run.Reach.next (.expire r.exitWait) (Run.Reach.next (.scan 0) Run.Reach.start trivial
    hscan) trivial (if_pos ⟨rfl, _, rfl, by simp⟩), rfl, hend⟩

theorem step_complete_done {i : Fin 8} (hphase : r.phase = .completing i)
    (hi : (r.slices i).state = .done) : step r .complete = some { r with phase := .scanning } := by
  simp only [ReceiveData.step, hphase, completeSlice, if_pos hi, Option.map_some]

theorem returns_of_incomplete {i : Fin 8} (hreached : r.endReached = false) (hend : r.atEnd = false)
    (hs : StepTo r .complete r') (hphase : r.phase = .completing i)
    (hstate : (r.slices i).state = .receiving) (hzero : (r.slices i).bytes = 0)
    (hmissing : ¬ ∀ j < (r.slices i).sliceNo.toNat, r.completed j = true) :
    ∃ r'', Run.Reach step (fun _ _ => True) r' r'' ∧ r''.phase = .returned ∧ r''.atEnd = false := by
  cases hs with
  | @complete j r₁ hphase' hfin =>
    rw [hphase] at hphase'
    injection hphase' with hij
    subst hij
    have hslot := finishSlot_slices_self r i
    cases hfin with
    | already hdone =>
      rw [hdone] at hstate
      cases hstate
    | data _ _ _ _ hpos _ _ => omega
    | atEnd _ _ _ hall =>
      exact absurd (fun (j : ℕ) hj => hall j (by omega) (by omega)) hmissing
    | incomplete _ _ _ _ =>
      exact returns_of_zero (i := i) rfl (by show ((finishSlot r i).slices i).state = _; rw [hslot])
        (by show ((finishSlot r i).slices i).bytes = _; rw [hslot, hzero]) hreached hend

theorem returns_of_reqack {top now : ℕ} {m : Reqack} {i : Fin 8} (hreached : r.endReached = false)
    (hend : r.atEnd = false) (hc : Consistent r) (hs : StepTo r (.receive top now (.reqack m)) r')
    (hzero : asUsize m.bytes = 0) (hstate : (r.slices i).state = .done)
    (hno : (r.slices i).sliceNo = m.sliceNo) :
    ∃ r'', Run.Reach step (fun _ _ => True) r' r'' ∧ r''.phase = .returned ∧ r''.atEnd = false := by
  have hfree : (r.slices i).state ≠ .free := by simp [hstate]
  have hend' : r'.atEnd = false := by
    by_contra h
    rcases hs.atEnd_iff.mp (Bool.eq_true_of_not_eq_false h) with h | ⟨_, h, _⟩
    · rw [hend] at h
      cases h
    · cases h
  have hcontrol := hs.control.1
  cases hs with
  | ignored _ hreq _ => cases hreq
  | answered _ hnone _ => exact absurd hno (findSlice_none hnone i hfree)
  | @handled _ _ _ s b k r₁ _ _ hd hopen _ hfill _ hreq _ =>
    obtain ⟨rfl, rfl⟩ := Prod.mk.inj (Option.some.inj hd)
    have hslot : (r'.slices i).state = .done ∧ (r'.slices i).bytes = 0 ∧ k = i := by
      rcases hopen.slot with ⟨rfl, hno', hfree'⟩ | ⟨hnone, -⟩
      · rw [armed_slices] at hno' hfree'
        have hki := hc.unique k i hfree' hfree (by rw [hno', hno])
        subst hki
        exact ⟨by rw [hfill.state, armed_slices, hstate], by rw [(hreq rfl).1, hzero], rfl⟩
      · rw [findSlice_congr (armed_slices r now)] at hnone
        exact absurd hno (findSlice_none hnone i hfree)
    obtain ⟨hdone, hbytes, rfl⟩ := hslot
    have hphase : r'.phase = .scanning ∨ r'.phase = .completing k := by
      rw [← armed_phase r now, ← hopen.frame.2.1]
      exact hfill.phase
    have hreached' : r'.endReached = false := by
      obtain ⟨-, -, -, -, -, -, -, he, -⟩ := hopen.frame
      obtain ⟨_, _, _, _, hrest⟩ := hfill.rest
      obtain ⟨_, harmed⟩ := armed_frame r now
      rw [hrest]
      show r₁.endReached = false
      rw [he, harmed]
      exact hreached
    rcases hphase with hphase | hphase
    · exact returns_of_zero hphase hdone hbytes hreached' hend'
    · obtain ⟨r'', hrun, hret⟩ := returns_of_zero (r := { r' with phase := .scanning }) rfl hdone
        hbytes hreached' hend'
      exact ⟨r'', (Run.Reach.next .complete Run.Reach.start trivial
        (step_complete_done hphase hdone)).trans hrun, hret⟩

/-- A step that is not as `EndsComplete` says lets the main loop end without `produce_end`. -/
theorem returns_of_not_endsComplete (hr : Agrees r) (hc : Consistent r) (hs : StepTo r a r')
    (hends : ¬ EndsComplete r a) :
    ∃ r'', Run.Reach step (fun _ _ => True) r' r'' ∧ r''.phase = .returned ∧ r''.atEnd = false := by
  have hreached : r.atEnd = false → r.endReached = false := fun hend => by
    by_contra h
    have := hr.reached (Bool.eq_true_of_not_eq_false h)
    rw [hend] at this
    cases this
  cases a with
  | complete =>
    simp only [EndsComplete, not_forall, exists_prop, not_or] at hends
    obtain ⟨i, hphase, hstate, hzero, hend, hmissing⟩ := hends
    have hend' := Bool.eq_false_of_not_eq_true hend
    exact returns_of_incomplete (hreached hend') hend' hs hphase hstate hzero
      (fun hall => hmissing.elim fun j hj => hj.elim fun hlt hnot => hnot (hall j hlt))
  | receive top now d =>
    cases d with
    | reqack m =>
      simp only [EndsComplete, not_forall, exists_prop] at hends
      obtain ⟨hzero, i, hstate, hno, hend⟩ := hends
      have hend' := Bool.eq_false_of_not_eq_true hend
      exact returns_of_reqack (hreached hend') hend' hc hs hzero hstate hno
    | data _ _ => exact absurd trivial hends
    | fec _ _ => exact absurd trivial hends
    | skipped => exact absurd trivial hends
    | unexpected => exact absurd trivial hends
  | seed => exact absurd trivial hends
  | expire _ => exact absurd trivial hends
  | scan _ => exact absurd trivial hends
  | write => exact absurd trivial hends
  | writeConsumed => exact absurd trivial hends
  | writeProduced => exact absurd trivial hends

end Drain

/-- In every run in which a slot of zero bytes is done only when the end is marked, the main loop
ends with the end marked; and from every other step on it can end without. -/
theorem spawn_net_receiver_atEnd (blockSize exitWait : ℕ) (late : List (ℤ × ℤ × ℤ)) (fifo : Fifo)
    (r : Receiver)
    (hrun : Run.Reach step EndsComplete (Receiver.start blockSize exitWait late fifo) r) :
    (r.phase = .returned → r.atEnd = true) ∧ ∀ a r', step r a = some r' → ¬ EndsComplete r a →
      ∃ r'', Run.Reach step (fun _ _ => True) r' r'' ∧ r''.phase = .returned ∧ r''.atEnd = false := by
  have hstart : Agrees (Receiver.start blockSize exitWait late fifo) :=
    ⟨fun _ hi => (by cases hi), fun h => (by cases h), fun h => absurd rfl h, fun h => (by cases h),
      fun _ _ _ hi => (by cases hi)⟩
  obtain ⟨hr, hc, hused⟩ := hrun.invariant
    (I := fun r => Agrees r ∧ Consistent r ∧ CompletingUsed r)
    ⟨hstart, consistent_start _ _ _ _, completingUsed_start _ _ _ _⟩
    fun s a s' ⟨hr, hc, hused⟩ hends hs =>
      have hs' := step_cases hs
      ⟨hr.step hused hends hs', hc.change (hs'.change hused), hs'.completingUsed hused⟩
  exact ⟨hr.returned, fun a r' hs hends => returns_of_not_endsComplete hr hc (step_cases hs) hends⟩

/-- The ten slices, the end marker, and 500 later the end of the main loop. -/
theorem spawn_net_receiver_atEnd_tenSlices : ∃ r : Receiver, r.phase = .returned ∧ r.atEnd = true := by
  have hexec : (Run.exec step EndsComplete tenSlicesStart
      (eachOnce 10 ++ [.receive 0 0 (.reqack ⟨10, 0, 0⟩), .complete, .scan 0, .expire 500])).map
      (fun r => decide (r.phase = .returned)) = some true := by decide +kernel
  obtain ⟨r, hr, hp⟩ := Run.exists_reach_of_exec hexec
  have hret := of_decide_eq_true hp
  exact ⟨r, hret, (spawn_net_receiver_atEnd 1 500 [] _ r hr).1 hret⟩

/-- Slice 9 is missing when the end marker completes. -/
theorem spawn_net_receiver_strands : ∃ r,
    Run.Reach step (fun _ a => Genuine tenSlices a) tenSlicesStart r ∧
      Starts tenSlices tenSlicesStart ∧ r.phase = .returned ∧ r.atEnd = false := by
  have hexec : (Run.exec step (fun _ a => Genuine tenSlices a) tenSlicesStart
      (eachOnce 9 ++ [.receive 0 0 (.reqack ⟨10, 0, 0⟩), .complete, .scan 0, .expire 500])).map
      (fun r => decide (r.phase = .returned ∧ r.atEnd = false)) = some true := by decide +kernel
  obtain ⟨r, hr, hp⟩ := Run.exists_reach_of_exec hexec
  exact ⟨r, hr, tenSlicesStart_starts, of_decide_eq_true hp⟩

end Udpcast.ReceiveData
