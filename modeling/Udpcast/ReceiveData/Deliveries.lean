import Udpcast.ReceiveData.Table

/-!
# In which order, and how often, slices are completed

`complete_slice` hands a slice over as soon as its own blocks are there, and `completed_slices` is
asked for a REQACK only.
-/

namespace Udpcast.ReceiveData

open Receiver

/-! ### At most once -/

/-- The slice for which an event claims a slot, stores a block or runs `complete_slice`. -/
def Event.worksOn : Event → Option ℤ
  | .claimed s => some s
  | .wrote s => some s
  | .completed s _ => some s
  | .ok _ => none
  | .retransmit _ _ _ => none

/-- No slice that has been completed is being received, and after `complete_slice` nothing more is
done for the slice. -/
def AtMostOnce (r : Receiver) : Prop :=
  (∀ i, (r.slices i).state = .receiving → ∀ n, .completed (r.slices i).sliceNo n ∉ r.trace) ∧
  r.trace.Pairwise fun e e' => ∀ s n, e = .completed s n → e'.worksOn ≠ some s

/-- No slot is claimed for a slice on record. -/
def ClaimsUnrecorded (r : Receiver) (a : Action) : Prop := ∀ s ∈ opens r a, r.completed s = false

instance (r : Receiver) (a : Action) : Decidable (ClaimsUnrecorded r a) :=
  inferInstanceAs (Decidable (∀ s ∈ opens r a, _))

section AtMostOnce

variable {r r' : Receiver} {a : Action}

theorem AtMostOnce.not_recorded (h : AtMostOnce r) (hc : Consistent r) {i : Fin 8}
    (hi : (r.slices i).state = .receiving) : r.completed (r.slices i).sliceNo = false := by
  by_contra hdone
  obtain ⟨n, hn⟩ := (hc.record _).mp (Bool.eq_true_of_not_eq_false hdone)
  exact h.1 i hi n hn

theorem AtMostOnce.append (h : AtMostOnce r) (hc : Consistent r) {es : List Event}
    (hes : ∀ e ∈ es, ∀ s n, e ≠ .completed s n)
    (hwork : ∀ e ∈ es, ∀ s, e.worksOn = some s → r.completed s = false) :
    (r.trace ++ es).Pairwise fun e e' => ∀ s n, e = .completed s n → e'.worksOn ≠ some s := by
  refine List.pairwise_append.mpr ⟨h.2, ?_, ?_⟩
  · exact List.pairwise_of_forall_mem_list fun e he _ _ s n hs => absurd hs (hes e he s n)
  · intro e he e' he' s n hs hon
    have hdone := (hc.record s).mpr ⟨n, hs ▸ he⟩
    rw [hwork e' he' s hon] at hdone
    cases hdone

theorem Quiet.worksOn {e : Event} (h : Quiet r a r' e) {s : ℤ} (hs : e.worksOn = some s) :
    ∃ j, (r'.slices j).state = .receiving ∧ (r'.slices j).sliceNo = s := by
  cases h with
  | @wrote j hj => exact ⟨j, hj, Option.some.inj hs⟩
  | completing _ _ _ => cases hs
  | onRecord _ => cases hs
  | noSlot _ => cases hs
  | retransmit => cases hs

theorem AtMostOnce.change (h : AtMostOnce r) (hc : Consistent r) (hclaims : ClaimsUnrecorded r a)
    (hs : Change r a r') : AtMostOnce r' := by
  have hc' := hc.change hs
  cases hs with
  | kept _ hsame hrecord htrace =>
    obtain ⟨es, ht, hquiet⟩ := htrace
    have hrecv : ∀ i, (r'.slices i).state = .receiving →
        r.completed (r'.slices i).sliceNo = false := by
      intro i hi
      rw [(hsame i).1] at hi
      rw [(hsame i).2.1]
      exact h.not_recorded hc hi
    refine ⟨fun i hi n hn => ?_, ?_⟩
    · have hdone := (hc'.record _).mpr ⟨n, hn⟩
      rw [completed_congr hrecord, hrecv i hi] at hdone
      cases hdone
    · rw [ht]
      refine h.append hc (fun e he => (hquiet e he).not_completed) fun e he s hon => ?_
      obtain ⟨j, hj, rfl⟩ := (hquiet e he).worksOn hon
      exact hrecv j hj
  | @claimed i s b hopens _ _ hsame hstate hno _ _ hrecord htrace =>
    obtain ⟨es, ht, hquiet⟩ := htrace
    have hrecv : ∀ j, (r'.slices j).state = .receiving →
        r.completed (r'.slices j).sliceNo = false := by
      intro j hj
      by_cases hji : j = i
      · rw [hji, hno]
        exact hclaims s hopens
      · rw [(hsame j hji).1] at hj
        rw [(hsame j hji).2.1]
        exact h.not_recorded hc hj
    refine ⟨fun j hj n hn => ?_, ?_⟩
    · have hdone := (hc'.record _).mpr ⟨n, hn⟩
      rw [completed_congr hrecord, hrecv j hj] at hdone
      cases hdone
    · rw [ht]
      refine h.append hc (fun e he => ?_) fun e he s' hon => ?_
      · rcases List.mem_cons.mp he with rfl | he
        · simp
        · exact (hquiet e he).not_completed
      · rcases List.mem_cons.mp he with rfl | he
        · rw [← Option.some.inj hon]
          exact hclaims s hopens
        · obtain ⟨j, hj, rfl⟩ := (hquiet e he).worksOn hon
          exact hrecv j hj
  | @completed i _ _ hstate _ hother hself hrecord htrace =>
    refine ⟨fun j hj n hn => ?_, ?_⟩
    · have hji : j ≠ i := fun heq => by
        rw [heq, hself] at hj
        cases hj
      rw [hother j hji] at hj hn
      rcases (hrecord _).mp ((hc'.record _).mpr ⟨n, hn⟩) with hsame | hdone
      · exact hji (hc.unique j i (by simp [hj]) (by simp [hstate]) hsame)
      · rw [h.not_recorded hc hj] at hdone
        cases hdone
    · rw [htrace]
      refine List.pairwise_append.mpr ⟨h.2, ?_, ?_⟩
      · simp [Event.worksOn]
      · intro e he e' he' s n hs hon
        rcases List.mem_cons.mp he' with rfl | he'
        · rw [hs, ← Option.some.inj hon] at he
          exact h.1 i hstate n he
        · obtain rfl := List.mem_singleton.mp he'
          cases hon

theorem not_atMostOnce (hc : Consistent r) (hs : Change r a r')
    (hclaims : ¬ ClaimsUnrecorded r a) : ¬ AtMostOnce r' := by
  intro honce
  refine hclaims fun s hopens => ?_
  by_contra hdone
  obtain ⟨n, hn⟩ := (hc.record s).mp (Bool.eq_true_of_not_eq_false hdone)
  cases hs with
  | kept hnone _ _ _ =>
    rw [hopens] at hnone
    cases hnone
  | @claimed i s' b hopens' _ _ _ hstate hno _ _ _ htrace =>
    obtain ⟨es, ht, -⟩ := htrace
    rw [hopens] at hopens'
    obtain rfl := Option.some.inj hopens'
    refine honce.1 i hstate n ?_
    rw [hno, ht]
    exact List.mem_append_left _ hn
  | completed ha _ _ _ _ _ _ _ =>
    rw [ha] at hopens
    cases hopens

end AtMostOnce

/-- In every run in which no slot is claimed for a slice on record nothing is done for a slice
after its `complete_slice`; and the first step that claims a slot otherwise does something. -/
theorem complete_slice_atMostOnce (blockSize exitWait : ℕ) (late : List (ℤ × ℤ × ℤ)) (fifo : Fifo)
    (r : Receiver)
    (hrun : Run.Reach step ClaimsUnrecorded (Receiver.start blockSize exitWait late fifo) r) :
    AtMostOnce r ∧ ∀ a r', step r a = some r' → (AtMostOnce r' ↔ ClaimsUnrecorded r a) := by
  have hstart : AtMostOnce (Receiver.start blockSize exitWait late fifo) :=
    ⟨fun _ hi => (by cases hi), List.Pairwise.nil⟩
  obtain ⟨honce, hc, hused⟩ := hrun.invariant
    (I := fun r => AtMostOnce r ∧ Consistent r ∧ CompletingUsed r)
    ⟨hstart, consistent_start _ _ _ _, completingUsed_start _ _ _ _⟩
    fun s a s' ⟨honce, hc, hused⟩ hclaims hs =>
      have hchange := (step_cases hs).change hused
      ⟨honce.change hc hclaims hchange, hc.change hchange, (step_cases hs).completingUsed hused⟩
  refine ⟨honce, fun a r' hs => ⟨fun honce' => ?_, fun hclaims => ?_⟩⟩
  · by_contra hclaims
    exact not_atMostOnce hc ((step_cases hs).change hused) hclaims honce'
  · exact honce.change hc hclaims ((step_cases hs).change hused)

theorem complete_slice_atMostOnce_tenSlices :
    ∃ r, (∀ s ∈ List.range 10, Event.completed s 2 ∈ r.trace) ∧ AtMostOnce r := by
  have hexec : (Run.exec step ClaimsUnrecorded tenSlicesStart (eachOnce 10)).map
      (fun r => decide (∀ s ∈ List.range 10, Event.completed s 2 ∈ r.trace)) = some true := by
    decide +kernel
  obtain ⟨r, hr, hp⟩ := Run.exists_reach_of_exec hexec
  exact ⟨r, of_decide_eq_true hp, (complete_slice_atMostOnce 1 500 [] _ r hr).1⟩

/-- Slice 8 is retransmitted for another receiver while slice 9 is in the slot that slice 8 had:
it is received again. -/
theorem complete_slice_twice : ∃ r,
    Run.Reach step (fun _ a => Genuine tenSlices a) tenSlicesStart r ∧
      Starts tenSlices tenSlicesStart ∧ ¬ AtMostOnce r := by
  have hexec : (Run.exec step (fun _ a => Genuine tenSlices a) tenSlicesStart
      (eachOnce 10 ++ [block 8 0])).map
      (fun r => decide ((r.slices 0).state = .receiving ∧
        Event.completed (r.slices 0).sliceNo 2 ∈ r.trace)) = some true := by decide +kernel
  obtain ⟨r, hr, hp⟩ := Run.exists_reach_of_exec hexec
  obtain ⟨hstate, hdone⟩ := of_decide_eq_true hp
  exact ⟨r, hr, tenSlicesStart_starts, fun honce =>
    honce.1 0 hstate 2 hdone⟩

/-! ### In order -/

/-- The data slices that were handed to the writer. -/
def delivered (trace : List Event) : List ℤ :=
  trace.filterMap fun
    | .completed s n => if 0 < n then some s else none
    | _ => none

/-- The data slices were handed over in file order, without gaps. -/
def InOrder (r : Receiver) : Prop := ∃ k : ℕ, delivered r.trace = (List.range k).map (↑)

/-- `complete_slice` runs for a data slice only when it makes the check that it makes for the end
marker: all earlier slices are on record.  The slice itself is not. -/
def CompletesNext (r : Receiver) : Action → Prop
  | .complete => ∀ i, r.phase = .completing i → (r.slices i).state = .receiving →
      0 < (r.slices i).bytes →
      (∀ j < (r.slices i).sliceNo.toNat, r.completed j = true) ∧
        r.completed (r.slices i).sliceNo = false
  | _ => True

instance (r : Receiver) : (a : Action) → Decidable (CompletesNext r a)
  | .complete => inferInstanceAs (Decidable (∀ _, _))
  | .seed | .expire _ | .receive _ _ _ | .scan _ | .write | .writeConsumed | .writeProduced =>
    inferInstanceAs (Decidable True)

theorem completesNext_of {r : Receiver} {a : Action} (h : ∀ i, a = .complete →
    r.phase = .completing i → (r.slices i).state = .receiving → 0 < (r.slices i).bytes →
    (∀ j < (r.slices i).sliceNo.toNat, r.completed j = true) ∧
      r.completed (r.slices i).sliceNo = false) : CompletesNext r a := by
  cases a with
  | complete => exact fun i => h i rfl
  | seed => trivial
  | expire _ => trivial
  | receive _ _ _ => trivial
  | scan _ => trivial
  | write => trivial
  | writeConsumed => trivial
  | writeProduced => trivial

theorem mem_delivered {trace : List Event} {s : ℤ} :
    s ∈ delivered trace ↔ ∃ n, 0 < n ∧ Event.completed s n ∈ trace := by
  rw [delivered, List.mem_filterMap]
  constructor
  · rintro ⟨e, he, h⟩
    cases e with
    | completed s' n =>
      simp only at h
      split at h
      · rename_i hn
        exact ⟨n, hn, Option.some.inj h ▸ he⟩
      · cases h
    | claimed _ => cases h
    | wrote _ => cases h
    | ok _ => cases h
    | retransmit _ _ _ => cases h
  · rintro ⟨n, hn, he⟩
    exact ⟨_, he, if_pos hn⟩

theorem delivered_append {l es : List Event} (h : ∀ e ∈ es, ∀ s n, e ≠ .completed s n) :
    delivered (l ++ es) = delivered l := by
  have hnil : delivered es = [] := by
    refine List.filterMap_eq_nil_iff.mpr fun e he => ?_
    cases e with
    | completed s n => exact absurd rfl (h _ he s n)
    | claimed _ => rfl
    | wrote _ => rfl
    | ok _ => rfl
    | retransmit _ _ _ => rfl
  rw [delivered, List.filterMap_append]
  show delivered l ++ delivered es = delivered l
  rw [hnil, List.append_nil]

theorem delivered_completed (l : List Event) (s : ℤ) (n : ℕ) :
    delivered (l ++ [.completed s n, .ok s]) = delivered l ++ if 0 < n then [s] else [] := by
  rw [delivered, List.filterMap_append]
  congr 1
  split
  · rename_i hpos
    simp [hpos]
  · rename_i hpos
    simp [hpos]

section InOrder

variable {t : Transfer} {r r' : Receiver} {a : Action}

/-- The slices before the end marker that are on record were handed over. -/
theorem Sized.mem_delivered_iff (h : Sized t r) (hc : Consistent r) {s : ℤ} (hs : 0 ≤ s)
    (hlt : s < t.endNo) : s ∈ delivered r.trace ↔ r.completed s = true := by
  rw [mem_delivered, hc.record]
  constructor
  · rintro ⟨n, -, hn⟩
    exact ⟨n, hn⟩
  · rintro ⟨n, hn⟩
    have hsize := (h.completions s n hn).2.2
    have hpos := (t.size_pos_iff hs).mpr hlt
    exact ⟨n, by omega, hn⟩

/-- A step hands over no data slice, or the one for which `complete_slice` runs. -/
theorem delivered_cases (h : Sized t r) (hused : CompletingUsed r) (hs : StepTo r a r') :
    delivered r'.trace = delivered r.trace ∧ CompletesNext r a ∨
      ∃ i, a = .complete ∧ r.phase = .completing i ∧ (r.slices i).state = .receiving ∧
        0 < (r.slices i).bytes ∧ 0 ≤ (r.slices i).sliceNo ∧ (r.slices i).sliceNo < t.endNo ∧
        delivered r'.trace = delivered r.trace ++ [(r.slices i).sliceNo] := by
  have hdone : ∀ i, a = .complete → r.phase = .completing i → (r'.slices i).state = .done := by
    rintro i rfl hphase
    exact hs.done hphase
  cases hs.change hused with
  | kept _ hsame _ htrace =>
    obtain ⟨es, ht, hquiet⟩ := htrace
    refine Or.inl ⟨by rw [ht, delivered_append fun e he => (hquiet e he).not_completed], ?_⟩
    refine completesNext_of fun i ha hphase hstate => ?_
    rw [← (hsame i).1, hdone i ha hphase] at hstate
    cases hstate
  | @claimed i s b hopens _ _ _ _ _ _ _ _ htrace =>
    obtain ⟨es, ht, hquiet⟩ := htrace
    refine Or.inl ⟨?_, ?_⟩
    · rw [ht, delivered_append fun e he => ?_]
      rcases List.mem_cons.mp he with rfl | he
      · simp
      · exact (hquiet e he).not_completed
    · refine completesNext_of fun i ha _ _ => ?_
      rw [ha] at hopens
      cases hopens
  | @completed i ha hphase hstate hno _ _ _ htrace =>
    have hdelivered := delivered_completed r.trace (r.slices i).sliceNo (r.slices i).bytes
    rw [← htrace] at hdelivered
    rcases Nat.eq_zero_or_pos (r.slices i).bytes with h0 | hpos
    · rw [if_neg (by omega), List.append_nil] at hdelivered
      refine Or.inl ⟨hdelivered, ?_⟩
      refine completesNext_of fun j _ hj _ hpos => ?_
      rw [hphase] at hj
      injection hj with hij
      rw [← hij] at hpos
      omega
    · rw [if_pos hpos] at hdelivered
      have hlt : (r.slices i).sliceNo < t.endNo := by
        rw [← t.size_pos_iff hno, ← h.bytes_receiving hstate]
        exact hpos
      exact Or.inr ⟨i, ha, hphase, hstate, hpos, hno, hlt, hdelivered⟩

/-- A step keeps the order exactly if `complete_slice` runs for the next slice. -/
theorem inOrder_iff (h : Sized t r) (hc : Consistent r) (hused : CompletingUsed r) (hr : InOrder r)
    (hs : StepTo r a r') : InOrder r' ↔ CompletesNext r a := by
  obtain ⟨k, hk⟩ := hr
  rcases delivered_cases h hused hs with ⟨hsame, hnext⟩ | ⟨i, rfl, hphase, hstate, hpos, hno, hlt, hadd⟩
  · refine ⟨fun _ => hnext, fun _ => ⟨k, by rw [hsame, hk]⟩⟩
  have hmem : ∀ s : ℤ, 0 ≤ s → s < t.endNo → (r.completed s = true ↔ s < k) := by
    intro s hs hlt
    rw [← h.mem_delivered_iff hc hs hlt, hk, List.mem_map]
    constructor
    · rintro ⟨j, hj, rfl⟩
      have := List.mem_range.mp hj
      omega
    · intro hsk
      exact ⟨s.toNat, List.mem_range.mpr (by omega), by omega⟩
  have hguard : CompletesNext r .complete ↔ (r.slices i).sliceNo = k := by
    constructor
    · intro hnext
      obtain ⟨hbelow, hself⟩ := hnext i hphase hstate hpos
      have hge : ¬ (r.slices i).sliceNo < k := fun hsk => by
        rw [(hmem _ hno hlt).mpr hsk] at hself
        cases hself
      by_contra hne
      have hk' := hbelow k (by omega)
      rw [hmem k (by omega) (by omega)] at hk'
      omega
    · intro heq j hj _ _
      rw [hphase] at hj
      injection hj with hij
      subst hij
      refine ⟨fun j hj => (hmem j (by omega) (by omega)).mpr (by omega), ?_⟩
      by_contra hdone
      have := (hmem _ hno hlt).mp (Bool.eq_true_of_not_eq_false hdone)
      omega
  rw [hguard, InOrder, hadd, hk]
  constructor
  · rintro ⟨k', hk'⟩
    have hlen := congrArg List.length hk'
    simp only [List.length_append, List.length_map, List.length_range, List.length_singleton] at hlen
    rw [← hlen, List.range_succ, List.map_append] at hk'
    exact (List.singleton_injective (List.append_cancel_left hk'))
  · intro heq
    exact ⟨k + 1, by rw [List.range_succ, List.map_append, heq]; rfl⟩

end InOrder

/-- In every run on datagrams of a transfer in which `complete_slice` runs for a data slice only
when all earlier ones are on record, the slices are handed over in file order; and the first step
in which it runs for another slice breaks the order. -/
theorem complete_slice_inOrder (t : Transfer) (r₀ r : Receiver) (hstart : Starts t r₀)
    (hrun : Run.Reach step (fun r a => Genuine t a ∧ CompletesNext r a) r₀ r) :
    InOrder r ∧ ∀ a r', Genuine t a → step r a = some r' → (InOrder r' ↔ CompletesNext r a) := by
  have hnil : InOrder r₀ := by
    obtain ⟨exitWait, late, fifo, rfl, -, -⟩ := hstart
    exact ⟨0, rfl⟩
  obtain ⟨hr, hsized, hc, hused⟩ := hrun.invariant
    (I := fun r => InOrder r ∧ Sized t r ∧ Consistent r ∧ CompletingUsed r)
    ⟨hnil, sized_start hstart, consistent_of_starts hstart, completingUsed_of_starts hstart⟩
    fun s a s' ⟨hr, hsized, hc, hused⟩ ⟨hgen, hnext⟩ hs =>
      have hs' := step_cases hs
      ⟨(inOrder_iff hsized hc hused hr hs').mpr hnext, hsized.step hused hgen hs',
        hc.change (hs'.change hused), hs'.completingUsed hused⟩
  exact ⟨hr, fun a r' _ hs => inOrder_iff hsized hc hused hr (step_cases hs)⟩

/-- The ten slices are handed over in order. -/
theorem complete_slice_inOrder_tenSlices :
    ∃ r, delivered r.trace = (List.range 10).map (↑) ∧ InOrder r := by
  have hexec : (Run.exec step (fun r a => Genuine tenSlices a ∧ CompletesNext r a) tenSlicesStart
      (eachOnce 10)).map (fun r => decide (delivered r.trace = (List.range 10).map (↑))) = some true := by
    decide +kernel
  obtain ⟨r, hr, hp⟩ := Run.exists_reach_of_exec hexec
  exact ⟨r, of_decide_eq_true hp, (complete_slice_inOrder tenSlices _ r
    tenSlicesStart_starts hr).1⟩

/-- Slice 1 is complete while slice 0, of which nothing has arrived, is not. -/
theorem complete_slice_overtakes : ∃ r,
    Run.Reach step (fun _ a => Genuine tenSlices a) tenSlicesStart r ∧
      Starts tenSlices tenSlicesStart ∧ ¬ InOrder r := by
  have hexec : (Run.exec step (fun _ a => Genuine tenSlices a) tenSlicesStart
      [.seed, block 1 0, .scan 0, block 1 1, .complete]).map
      (fun r => decide (delivered r.trace = [1])) = some true := by decide +kernel
  obtain ⟨r, hr, hp⟩ := Run.exists_reach_of_exec hexec
  refine ⟨r, hr, tenSlicesStart_starts, fun ⟨k, hk⟩ => ?_⟩
  rw [of_decide_eq_true hp] at hk
  cases k with
  | zero => cases hk
  | succ k =>
    rw [List.range_succ_eq_map] at hk
    injection hk with h0 _
    cases h0

end Udpcast.ReceiveData
