import Udpcast.ReceiveData.End
import Udpcast.ReceiveData.Stream

/-!
# Packets that arrive slice by slice

A path may lose, repeat and reorder the packets of one slice, but brings none of an earlier slice
after one of a later slice.  A receiver, also one that joins late, then either has all slices on
record before the one that arrived last, or misses one of them for good.
-/

namespace Udpcast.ReceiveData

open Receiver

/-- The number of the slice that arrived last, -1 before the first one. -/
def seeNo (_ : Receiver) (a : Action) (_ : Receiver) (last : ℤ) : ℤ :=
  match a with
  | .receive _ _ d => (d.slice.map Prod.fst).getD last
  | _ => last

/-- No packet of an earlier slice arrives after one of a later slice. -/
def Orderly (last : ℤ) : Action → Prop
  | .receive _ _ d => ∀ x ∈ d.slice, last ≤ x.1
  | _ => True

instance (last : ℤ) : (a : Action) → Decidable (Orderly last a)
  | .receive _ _ d => inferInstanceAs (Decidable (∀ x ∈ d.slice, last ≤ x.1))
  | .seed | .expire _ | .complete | .scan _ | .write | .writeConsumed | .writeProduced =>
    inferInstanceAs (Decidable True)

/-- The slots and the record of a receiver to which the slices up to `last` have come in turn. -/
structure InTurn (last : ℤ) (r : Receiver) : Prop where
  used : ∀ i, (r.slices i).state ≠ .free → (r.slices i).sliceNo ≤ last
  fresh : ∀ i, (r.slices i).state = .receiving → r.completed (r.slices i).sliceNo = false
  recorded : ∀ s, r.completed s = true → s ≤ last ∧
    (s = last → ∃ i, (r.slices i).state = .done ∧ (r.slices i).sliceNo = s)
  completing : ∀ i, r.phase = .completing i → (r.slices i).sliceNo = last
  late : ∀ l, r.phase = .seeding l → (∀ x ∈ l, x.1 ≤ last) ∧ ∀ s, r.completed s = false

/-- An earlier slice is not on record. -/
def Hole (last : ℤ) (r : Receiver) : Prop := ∃ s, 0 ≤ s ∧ s < last ∧ r.completed s = false

section InTurn

variable {t : Transfer} {stripes : ℕ} {r r' : Receiver} {a : Action} {last : ℤ}

theorem seeNo_of_brings {s b : ℤ} (hb : brings r a = some (s, b)) (ha : a ≠ .seed) :
    seeNo r a r' last = s := by
  cases a with
  | seed => exact absurd rfl ha
  | receive top now d =>
    have hd : d.slice = some (s, b) := hb
    rw [seeNo, hd]
    rfl
  | expire _ => cases hb
  | complete => cases hb
  | scan _ => cases hb
  | write => cases hb
  | writeConsumed => cases hb
  | writeProduced => cases hb

theorem Orderly.le (h : Orderly last a) : last ≤ seeNo r a r' last := by
  cases a with
  | receive top now d =>
    cases hd : d.slice with
    | none =>
      rw [seeNo, hd]
      exact le_rfl
    | some x =>
      rw [seeNo, hd]
      exact h x hd
  | seed => exact le_rfl
  | expire _ => exact le_rfl
  | complete => exact le_rfl
  | scan _ => exact le_rfl
  | write => exact le_rfl
  | writeConsumed => exact le_rfl
  | writeProduced => exact le_rfl

/-- A slot is claimed for a slice that was overheard, or for that of the packet that arrives. -/
theorem InTurn.opens_cases (h : InTurn last r) (r' : Receiver) {s : ℤ} (hs : opens r a = some s) :
    a = .seed ∧ s ≤ last ∧ (∀ s, r.completed s = false) ∨ a ≠ .seed ∧ seeNo r a r' last = s := by
  obtain ⟨⟨b, hb⟩, -⟩ := opens_eq_some.mp hs
  by_cases ha : a = .seed
  · left
    subst ha
    simp only [brings] at hb
    split at hb
    · rename_i s' b' x rest hphase
      obtain ⟨hle, hnone⟩ := h.late _ hphase
      obtain ⟨rfl, -⟩ := Prod.mk.inj (Option.some.inj hb)
      exact ⟨rfl, hle _ List.mem_cons_self, hnone⟩
    · cases hb
  · exact Or.inr ⟨ha, seeNo_of_brings hb ha⟩

theorem InTurn.opens_le (h : InTurn last r) {s : ℤ} (hs : opens r a = some s) :
    s ≤ seeNo r a r' last := by
  rcases h.opens_cases r' hs with ⟨rfl, hle, -⟩ | ⟨-, heq⟩
  · exact hle
  · exact heq.ge

theorem InTurn.not_recorded (h : InTurn last r) (ha : Orderly last a) {s : ℤ}
    (hs : opens r a = some s) : r.completed s = false := by
  rcases h.opens_cases r hs with ⟨-, -, hnone⟩ | ⟨-, heq⟩
  · exact hnone s
  · by_contra hdone
    obtain ⟨hle, hlast⟩ := h.recorded s (Bool.eq_true_of_not_eq_false hdone)
    have hge : last ≤ seeNo r a r last := ha.le
    rw [heq] at hge
    obtain ⟨i, hi, hno⟩ := hlast (by omega)
    exact findSlice_none (opens_eq_some.mp hs).2.1 i (by simp [hi]) hno

theorem seeNo_of_none (hb : brings r a = none) : seeNo r a r' last = last := by
  cases a with
  | receive top now d =>
    have hd : d.slice = none := hb
    rw [seeNo, hd]
    rfl
  | seed => rfl
  | expire _ => rfl
  | complete => rfl
  | scan _ => rfl
  | write => rfl
  | writeConsumed => rfl
  | writeProduced => rfl

theorem StepTo.completing (h : StepTo r a r') {i : Fin 8} (hp : r'.phase = .completing i) :
    (r.phase = .completing i ∧ r'.slices = r.slices ∧ brings r a = none) ∨
      ∃ s b, brings r a = some (s, b) ∧ a ≠ .seed ∧ (r'.slices i).sliceNo = s := by
  cases h with
  | seeded _ => cases hp
  | seedNoSlot _ _ => cases hp
  | seed _ _ => cases hp
  | expire _ _ _ => cases hp
  | skipped _ => cases hp
  | ignored _ _ _ =>
    rw [armed_phase] at hp
    cases hp
  | answered _ _ _ =>
    rw [emit_phase, armed_phase] at hp
    cases hp
  | @handled top now d s b j r₁ r' _ hd hopen _ hfill _ _ _ =>
    rcases hfill.phase with hp' | hp'
    · rw [hp', hopen.frame.2.1, armed_phase] at hp
      cases hp
    · rw [hp'] at hp
      obtain rfl := Phase.completing.inj hp
      exact Or.inr ⟨s, b, hd, by simp, by rw [hfill.sliceNo, hopen.sliceNo]⟩
  | complete _ _ => cases hp
  | scan _ =>
    rw [scanEnd] at hp
    split at hp
    · cases hp
    · split at hp
      · cases hp
      · cases hp
  | write _ hw =>
    obtain ⟨_, _, rfl⟩ := writeBlock_frame hw
    exact Or.inl ⟨hp, rfl, rfl⟩
  | writeConsumed _ _ => exact Or.inl ⟨hp, rfl, rfl⟩
  | writeProduced _ _ => exact Or.inl ⟨hp, rfl, rfl⟩

theorem InTurn.step (h : InTurn last r) (hc : Consistent r) (hused : CompletingUsed r)
    (ha : Orderly last a) (hs : StepTo r a r') : InTurn (seeNo r a r' last) r' := by
  have hle : last ≤ seeNo r a r' last := ha.le
  have hcompleting : ∀ i, r'.phase = .completing i → (r'.slices i).sliceNo = seeNo r a r' last := by
    intro i hp
    rcases hs.completing hp with ⟨hp₀, hslices, hnone⟩ | ⟨s, b, hb, hseed, hno⟩
    · rw [seeNo_of_none hnone, hslices]
      exact h.completing i hp₀
    · rw [seeNo_of_brings hb hseed, hno]
  have hlate : (∀ l, r.phase = .seeding l → r'.completedSlices = r.completedSlices) →
      ∀ l, r'.phase = .seeding l →
        (∀ x ∈ l, x.1 ≤ seeNo r a r' last) ∧ ∀ s, r'.completed s = false := by
    intro hrecord l hp
    obtain ⟨l₀, hp₀, hsub⟩ := hs.seeding hp
    obtain ⟨hall, hnone⟩ := h.late l₀ hp₀
    refine ⟨fun x hx => (hall x (hsub hx)).trans hle, fun s => ?_⟩
    rw [completed_congr (hrecord l₀ hp₀), hnone]
  cases hs.change hused with
  | kept _ hsame hrecord _ =>
    have hlate := hlate fun _ _ => hrecord
    refine ⟨fun i hi => ?_, fun i hi => ?_, fun s hdone => ?_, hcompleting, hlate⟩
    · obtain ⟨hstate, hno, -⟩ := hsame i
      rw [hstate] at hi
      have hused := h.used i hi
      omega
    · obtain ⟨hstate, hno, -⟩ := hsame i
      rw [hstate] at hi
      rw [completed_congr hrecord, hno]
      exact h.fresh i hi
    · rw [completed_congr hrecord] at hdone
      obtain ⟨hsle, hslot⟩ := h.recorded s hdone
      refine ⟨by omega, fun heq => ?_⟩
      obtain ⟨i, hi, hno⟩ := hslot (by omega)
      obtain ⟨hstate, hno', -⟩ := hsame i
      exact ⟨i, by rw [hstate, hi], by rw [hno', hno]⟩
  | @claimed i s b hopens _ _ hsame hstate hno _ _ hrecord _ =>
    have hlate := hlate fun _ _ => hrecord
    have hnew := h.not_recorded ha hopens
    refine ⟨fun j hj => ?_, fun j hj => ?_, fun s' hdone => ?_, hcompleting, hlate⟩
    · by_cases hji : j = i
      · rw [hji, hno]
        exact h.opens_le hopens
      · obtain ⟨hstate', hno', -⟩ := hsame j hji
        rw [hstate'] at hj
        have hused := h.used j hj
        omega
    · rw [completed_congr hrecord]
      by_cases hji : j = i
      · rw [hji, hno, hnew]
      · obtain ⟨hstate', hno', -⟩ := hsame j hji
        rw [hstate'] at hj
        rw [hno']
        exact h.fresh j hj
    · rw [completed_congr hrecord] at hdone
      have hsle := (h.recorded s' hdone).1
      refine ⟨by omega, fun heq => ?_⟩
      rcases h.opens_cases r' hopens with ⟨-, -, hnone⟩ | ⟨-, hlast⟩
      · rw [hnone] at hdone
        cases hdone
      · rw [heq, hlast, hnew] at hdone
        cases hdone
  | @completed i ha' hphase hstate _ hother hself hrecord _ =>
    have hlate := hlate fun l hp => by
      rw [hphase] at hp
      cases hp
    have hlast : seeNo r a r' last = last := by
      rw [ha']
      rfl
    have hno : ∀ j, (r'.slices j).sliceNo = (r.slices j).sliceNo := by
      intro j
      by_cases hji : j = i
      · rw [hji, hself]
      · rw [hother j hji]
    refine ⟨fun j hj => ?_, fun j hj => ?_, fun s hdone => ?_, hcompleting, hlate⟩
    · rw [hno, hlast]
      by_cases hji : j = i
      · rw [hji]
        exact h.used i (by simp [hstate])
      · rw [hother j hji] at hj
        exact h.used j hj
    · have hji : j ≠ i := fun hji => by
        rw [hji, hself] at hj
        cases hj
      rw [hother j hji] at hj ⊢
      by_contra hdone
      rcases (hrecord _).mp (Bool.eq_true_of_not_eq_false hdone) with heq | hdone'
      · exact hji (hc.unique j i (by simp [hj]) (by simp [hstate]) heq)
      · rw [h.fresh j hj] at hdone'
        cases hdone'
    · rw [hlast]
      rcases (hrecord s).mp hdone with rfl | hdone'
      · exact ⟨h.used i (by simp [hstate]), fun _ => ⟨i, by rw [hself], hno i⟩⟩
      · obtain ⟨hsle, hslot⟩ := h.recorded s hdone'
        refine ⟨hsle, fun heq => ?_⟩
        obtain ⟨j, hj, hsj⟩ := hslot heq
        have hji : j ≠ i := fun hji => by
          rw [hji, hstate] at hj
          cases hj
        exact ⟨j, by rw [hother j hji, hj], by rw [hno j, hsj]⟩

/-- A hole stays: only the slice that arrived last is put on record. -/
theorem Hole.step (h : Hole last r) (hr : InTurn last r) (hused : CompletingUsed r)
    (ha : Orderly last a) (hs : StepTo r a r') : Hole (seeNo r a r' last) r' := by
  obtain ⟨s, hs0, hslt, hmissing⟩ := h
  have hle : last ≤ seeNo r a r' last := ha.le
  refine ⟨s, hs0, by omega, ?_⟩
  cases hs.change hused with
  | kept _ _ hrecord _ => rw [completed_congr hrecord, hmissing]
  | claimed _ _ _ _ _ _ _ _ hrecord _ => rw [completed_congr hrecord, hmissing]
  | @completed i _ hphase _ _ _ _ hrecord _ =>
    by_contra hdone
    rcases (hrecord s).mp (Bool.eq_true_of_not_eq_false hdone) with heq | hdone'
    · have hlast := hr.completing i hphase
      omega
    · rw [hmissing] at hdone'
      cases hdone'

/-- The slice whose slot is still in use when the next one gets a slot is a hole. -/
theorem InTurn.hole_of_claims (h : InTurn last r) (hsized : Sized t r) (hused : CompletingUsed r)
    (hgenuine : Genuine t a) (ha : Orderly last a) (hs : StepTo r a r')
    (halone : ¬ClaimsAlone t r a) :
    Hole (seeNo r a r' last) r' := by
  rw [ClaimsAlone] at halone
  push Not at halone
  obtain ⟨s, hopens, -, j, hj, -⟩ := halone
  have hle : last ≤ seeNo r a r' last := ha.le
  have hno := h.used j (by simp [hj])
  have hne : (r.slices j).sliceNo ≠ s :=
    findSlice_none (opens_eq_some.mp hopens).2.1 j (by simp [hj])
  have hrecord : r'.completedSlices = r.completedSlices := by
    cases hs.change hused with
    | kept _ _ hrecord _ => exact hrecord
    | claimed _ _ _ _ _ _ _ _ hrecord _ => exact hrecord
    | completed ha' _ _ _ _ _ _ _ =>
      rw [ha'] at hopens
      cases hopens
  have hfresh : r'.completed (r.slices j).sliceNo = false := by
    rw [completed_congr hrecord]
    exact h.fresh j hj
  have hslice := (hsized.isSlice j (by simp [hj])).1
  rcases h.opens_cases r' hopens with ⟨-, hsle, hnone⟩ | ⟨-, hlast⟩
  · -- of two slices that were overheard, the earlier one is missing
    rcases lt_or_gt_of_ne hne with hlt | hlt
    · exact ⟨(r.slices j).sliceNo, hslice, by omega, hfresh⟩
    · obtain ⟨b, hb⟩ := (opens_eq_some.mp hopens).1
      refine ⟨s, (hsized.brings hgenuine hb).1, by omega, ?_⟩
      rw [completed_congr hrecord, hnone]
  · exact ⟨(r.slices j).sliceNo, hslice, by omega, hfresh⟩

/-- What is missing when a slice completes out of order is a hole. -/
theorem InTurn.hole_of_completes (h : InTurn last r) (hnext : ¬CompletesNext r a) : Hole last r := by
  by_contra hnone
  refine hnext (completesNext_of fun i _ hphase hstate _ => ⟨fun j hj => ?_, h.fresh i hstate⟩)
  by_contra hmissing
  have hlast := h.completing i hphase
  exact hnone ⟨j, Int.natCast_nonneg j, by omega, Bool.eq_false_of_not_eq_true hmissing⟩

/-! ### The writer -/

theorem StepTo.writes (h : StepTo r a r') : r'.fifo.data.size = r.fifo.data.size ∧
    (r'.writer = r.writer ∧ r'.output = r.output ∨ r'.writer = .waiting ∨
      (∃ n, r'.writer = .consumed n) ∨ r.writer = .waiting ∧ writeBlock r = some r') := by
  have hopened : ∀ {q q₁ : Receiver} {c : Option (Fin 8)} {s : ℤ} {i : Fin 8}, Opened q c s i q₁ →
      q₁.fifo.data.size = q.fifo.data.size ∧ q₁.writer = q.writer ∧ q₁.output = q.output := by
    intro q q₁ c s i hopen
    obtain ⟨-, -, -, hfifo, hw, ho, -⟩ := hopen.frame
    exact ⟨by rw [hfifo], hw, ho⟩
  have harmed : ∀ now, (armed r now).fifo.data.size = r.fifo.data.size ∧
      (armed r now).writer = r.writer ∧ (armed r now).output = r.output := by
    intro now
    obtain ⟨_, harmed⟩ := armed_frame r now
    rw [harmed]
    exact ⟨rfl, rfl, rfl⟩
  cases h with
  | seeded _ => exact ⟨rfl, Or.inl ⟨rfl, rfl⟩⟩
  | seedNoSlot _ _ => exact ⟨rfl, Or.inl ⟨rfl, rfl⟩⟩
  | seed _ hopen => exact ⟨(hopened hopen).1, Or.inl (hopened hopen).2⟩
  | expire _ _ _ => exact ⟨rfl, Or.inl ⟨rfl, rfl⟩⟩
  | @skipped _ now _ => exact ⟨(harmed now).1, Or.inl (harmed now).2⟩
  | @ignored _ now _ _ _ _ => exact ⟨(harmed now).1, Or.inl (harmed now).2⟩
  | @answered _ now _ _ _ _ => exact ⟨(harmed now).1, Or.inl (harmed now).2⟩
  | @handled top now d s b i r₁ r' _ _ hopen _ hfill _ _ _ =>
    obtain ⟨_, hfifo⟩ := hfill.fifo
    obtain ⟨_, _, _, _, hrest⟩ := hfill.rest
    obtain ⟨hs₁, hw₁, ho₁⟩ := hopened hopen
    obtain ⟨hs₀, hw₀, ho₀⟩ := harmed now
    refine ⟨?_, Or.inl ⟨?_, ?_⟩⟩
    · rw [hfifo]
      exact hs₁.trans hs₀
    · rw [hrest]
      exact hw₁.trans hw₀
    · rw [hrest]
      exact ho₁.trans ho₀
  | complete _ hfin =>
    cases hfin with
    | already _ => exact ⟨rfl, Or.inl ⟨rfl, rfl⟩⟩
    | data _ _ _ _ _ _ hq => exact ⟨Produconsum.produce_size hq, Or.inl ⟨rfl, rfl⟩⟩
    | atEnd _ _ _ _ => exact ⟨rfl, Or.inl ⟨rfl, rfl⟩⟩
    | incomplete _ _ _ _ => exact ⟨rfl, Or.inl ⟨rfl, rfl⟩⟩
  | scan _ =>
    rw [scanEnd]
    split
    · exact ⟨rfl, Or.inl ⟨rfl, rfl⟩⟩
    · split
      · exact ⟨rfl, Or.inl ⟨rfl, rfl⟩⟩
      · exact ⟨rfl, Or.inl ⟨rfl, rfl⟩⟩
  | write hwait hw =>
    have hframe := writeBlock_frame hw
    obtain ⟨_, _, heq⟩ := hframe
    exact ⟨by rw [heq], Or.inr (Or.inr (Or.inr ⟨hwait, hw⟩))⟩
  | writeConsumed _ hq =>
    exact ⟨Produconsum.consumed_size hq, Or.inr (Or.inr (Or.inl ⟨_, rfl⟩))⟩
  | writeProduced _ _ => exact ⟨rfl, Or.inr (Or.inl rfl)⟩

theorem writeBlock_returned (hpos : 0 < r.fifo.data.size) (hwait : r.writer = .waiting)
    (h : writeBlock r = some r') (hret : r'.writer = .returned) :
    r.atEnd = true ∧ r'.output = r.passed := by
  obtain ⟨m, hm, hw⟩ := Option.bind_eq_some_iff.mp h
  split at hw
  · rename_i hzero
    obtain rfl := Option.some.inj hw
    rw [hzero] at hm
    obtain ⟨hempty, hend⟩ := Produconsum.consumeContiguousMinAmount_zero hpos (by decide) hm
    refine ⟨hend, ?_⟩
    rw [passed, hempty, hwait, Nat.zero_sub, Ring.window_zero, List.append_nil]
  · obtain ⟨buf, -, hw⟩ := Option.bind_eq_some_iff.mp hw
    obtain rfl := Option.some.inj hw
    cases hret

/-! ### What has been handed over -/

/-- All slices before the one that arrived last may still complete, and what has been handed over
is the beginning of the transfer. -/
structure Gapless (t : Transfer) (stripes : ℕ) (r : Receiver) : Prop where
  reassembles : Reassembles t stripes r
  inOrder : InOrder r
  streams : Streams t r

/-- What holds between the actions of a receiver to which the slices come in turn. -/
structure Turns (t : Transfer) (stripes : ℕ) (p : Receiver × ℤ) : Prop where
  used : CompletingUsed p.1
  sized : Sized t p.1
  consistent : Consistent p.1
  inTurn : InTurn p.2 p.1
  last_le : p.2 ≤ t.endNo
  atEnd : p.1.atEnd = true ↔ MarkerLast t p.1.trace
  marked : p.1.completed t.endNo = true → p.1.atEnd = true ∨ Hole p.2 p.1
  gapless : Gapless t stripes p.1 ∨ Hole p.2 p.1
  dataSize : 0 < p.1.fifo.data.size
  returned : p.1.writer = .returned → p.1.atEnd = true ∧ p.1.output = t.slices.flatten

theorem flatten_contents (t : Transfer) :
    (((List.range t.endNo).map fun j : ℕ => (j : ℤ)).map t.content).flatten = t.slices.flatten := by
  rw [List.map_map]
  congr 1
  refine List.ext_getElem (by rw [List.length_map, List.length_range]; rfl) fun j hj hj' => ?_
  rw [List.getElem_map, List.getElem_range, Function.comp_apply, Transfer.content, Int.toNat_natCast,
    List.getD_eq_getElem _ _ hj']

/-- All has been handed over when the end is marked. -/
theorem Turns.passed_of_atEnd {p : Receiver × ℤ} (h : Turns t stripes p) (hend : p.1.atEnd = true) :
    p.1.passed = t.slices.flatten := by
  obtain ⟨l, hpre, hall⟩ := h.atEnd.mp hend
  have hdone : ∀ s : ℤ, 0 ≤ s → s < t.endNo → p.1.completed s = true := by
    intro s hs hlt
    obtain ⟨n, hn⟩ := hall s hs hlt
    exact (h.consistent.record s).mpr ⟨n, hpre.subset (List.mem_append_left _ hn)⟩
  rcases h.gapless with hgap | ⟨s, hs, hslt, hmissing⟩
  · obtain ⟨k, hk⟩ := hgap.inOrder
    have hkend : k = t.endNo := by
      refine Nat.le_antisymm ?_ ?_
      · by_contra hlt
        have hmem : ((t.endNo : ℕ) : ℤ) ∈ delivered p.1.trace := by
          rw [hk]
          exact List.mem_map.mpr ⟨t.endNo, List.mem_range.mpr (by omega), rfl⟩
        obtain ⟨n, hn, hcompleted⟩ := mem_delivered.mp hmem
        have hsize := (h.sized.completions _ n hcompleted).2.2
        have hpos := (t.size_pos_iff (Int.natCast_nonneg t.endNo)).mp (by omega)
        omega
      · by_contra hlt
        have hmem := (h.sized.mem_delivered_iff h.consistent (Int.natCast_nonneg k) (by omega)).mpr
          (hdone k (Int.natCast_nonneg k) (by omega))
        rw [hk] at hmem
        obtain ⟨j, hj, hjk⟩ := List.mem_map.mp hmem
        have := List.mem_range.mp hj
        omega
    have hstreams : p.1.passed = ((delivered p.1.trace).map t.content).flatten := hgap.streams
    rw [hstreams, hk, hkend]
    exact flatten_contents t
  · have hlast := h.last_le
    rw [hdone s hs (by omega)] at hmissing
    cases hmissing

theorem Turns.endNo_le {p : Receiver × ℤ} (h : Turns t stripes p) (hend : p.1.atEnd = true) :
    t.endNo ≤ p.2 := by
  obtain ⟨l, hpre, -⟩ := h.atEnd.mp hend
  have hmem := hpre.subset (List.mem_append_right l (List.mem_singleton_self _))
  exact (h.inTurn.recorded _ ((h.consistent.record _).mpr ⟨0, hmem⟩)).1

/-- With all slices on record, the end is marked. -/
theorem Turns.atEnd_of_completed {p : Receiver × ℤ} (h : Turns t stripes p)
    (hall : ∀ s : ℤ, 0 ≤ s → s ≤ t.endNo → p.1.completed s = true) : p.1.atEnd = true := by
  rcases h.marked (hall _ (Int.natCast_nonneg _) le_rfl) with hend | ⟨s, hs, hlt, hmissing⟩
  · exact hend
  · have hlast := h.last_le
    rw [hall s hs (by omega)] at hmissing
    cases hmissing

/-- The end marker completes with all other slices on record, or one of them is missing for good. -/
theorem Turns.marks {p : Receiver × ℤ} (h : Turns t stripes p) (ha : Orderly p.2 a)
    (hs : StepTo p.1 a r') (hdone : r'.completed t.endNo = true) :
    r'.atEnd = true ∨ Hole (seeNo p.1 a r' p.2) r' := by
  have hold : p.1.completed t.endNo = true → r'.atEnd = true ∨ Hole (seeNo p.1 a r' p.2) r' := by
    intro hold
    rcases h.marked hold with hend | hhole
    · exact Or.inl (hs.atEnd_iff.mpr (Or.inl hend))
    · exact Or.inr (hhole.step h.inTurn h.used ha hs)
  cases hs.change h.used with
  | kept _ _ hrecord _ =>
    rw [completed_congr hrecord] at hdone
    exact hold hdone
  | claimed _ _ _ _ _ _ _ _ hrecord _ =>
    rw [completed_congr hrecord] at hdone
    exact hold hdone
  | @completed i ha' hphase hstate _ _ _ hrecord _ =>
    rcases (hrecord _).mp hdone with hno | hdone
    · have hlast := h.inTurn.completing i hphase
      by_cases hall : ∀ s, 0 ≤ s → s < (p.1.slices i).sliceNo → p.1.completed s = true
      · left
        refine hs.atEnd_iff.mpr (Or.inr ⟨i, ha', hphase, by simp [hstate], ?_, hall⟩)
        rw [h.sized.bytes_receiving hstate, ← hno]
        have hpos := t.size_pos_iff (Int.natCast_nonneg t.endNo)
        by_contra hne
        exact absurd (hpos.mp (Nat.pos_of_ne_zero hne)) (lt_irrefl _)
      · right
        push Not at hall
        obtain ⟨s, hs0, hslt, hmissing⟩ := hall
        have hhole : Hole p.2 p.1 := ⟨s, hs0, by omega, Bool.eq_false_of_not_eq_true hmissing⟩
        exact hhole.step h.inTurn h.used ha hs
    · exact hold hdone

theorem Turns.step {p : Receiver × ℤ} (h : Turns t stripes p) (hlt : stripes < 2 ^ 31)
    (hcarried : Carried t stripes a) (ha : Orderly p.2 a) (hs : StepTo p.1 a r') :
    Turns t stripes (r', seeNo p.1 a r' p.2) where
  used := hs.completingUsed h.used
  sized := h.sized.step h.used hcarried.genuine hs
  consistent := h.consistent.change (hs.change h.used)
  inTurn := h.inTurn.step h.consistent h.used ha hs
  last_le := by
    cases hb : brings p.1 a with
    | none =>
      rw [seeNo_of_none hb]
      exact h.last_le
    | some x =>
      by_cases hseed : a = .seed
      · rw [hseed]
        exact h.last_le
      · rw [seeNo_of_brings (s := x.1) (b := x.2) hb hseed]
        exact (h.sized.brings hcarried.genuine hb).2.1
  atEnd := atEnd_iff_markerLast h.sized h.consistent h.used h.atEnd hs
  marked := h.marks ha hs
  gapless := by
    rcases h.gapless with hgap | hhole
    · by_cases halone : ClaimsAlone t p.1 a
      · by_cases hnext : CompletesNext p.1 a
        · have hr' := hgap.reassembles.step hlt hcarried halone hs
          exact Or.inl ⟨hr', (inOrder_iff h.sized h.consistent h.used hgap.inOrder hs).mpr hnext,
            hgap.streams.step hgap.reassembles hr' hcarried hs⟩
        · exact Or.inr ((h.inTurn.hole_of_completes hnext).step h.inTurn h.used ha hs)
      · exact Or.inr (h.inTurn.hole_of_claims h.sized h.used hcarried.genuine ha hs halone)
    · exact Or.inr (hhole.step h.inTurn h.used ha hs)
  dataSize := by
    rw [hs.writes.1]
    exact h.dataSize
  returned hret := by
    have hret' : r'.writer = .returned := hret
    rcases hs.writes.2 with ⟨hw, ho⟩ | hw | ⟨n, hw⟩ | ⟨hwait, hw⟩
    · rw [hw] at hret'
      obtain ⟨hend, hout⟩ := h.returned hret'
      exact ⟨hs.atEnd_mono hend, ho.trans hout⟩
    · rw [hw] at hret'
      cases hret'
    · rw [hw] at hret'
      cases hret'
    · obtain ⟨hend, hout⟩ := writeBlock_returned h.dataSize hwait hw hret'
      exact ⟨hs.atEnd_mono hend, hout.trans (h.passed_of_atEnd hend)⟩

theorem turns_start (t : Transfer) (stripes exitWait : ℕ) {late : List (ℤ × ℤ × ℤ)} {fifo : Fifo}
    (hfifo : Fifo.new t.blockSize = some fifo)
    (hlate : ∀ x ∈ late, t.IsSlice x.1 x.2.1 ∧ x.1 ≤ last) (hlast : last ≤ t.endNo) :
    Turns t stripes (Receiver.start t.blockSize exitWait late fifo, last) := by
  have hstart : Starts t (Receiver.start t.blockSize exitWait late fifo) :=
    ⟨exitWait, late, fifo, rfl, hfifo, fun x hx => (hlate x hx).1⟩
  have hnone : ∀ s, (Receiver.start t.blockSize exitWait late fifo).completed s = false := by
    intro s
    simp [Receiver.start, Receiver.completed]
  have hsize : fifo = Fifo.fresh t.blockSize := by
    rw [Fifo.new_eq t.blockSize_pos] at hfifo
    exact (Option.some.inj hfifo).symm
  refine
    { used := completingUsed_of_starts hstart
      sized := sized_start hstart
      consistent := consistent_of_starts hstart
      inTurn := ⟨fun i hi => absurd rfl hi, fun i hi => (by cases hi), fun s hdone => ?_,
        fun i hp => (by cases hp), fun l hp => ?_⟩
      last_le := hlast
      atEnd := ?_
      marked := fun hdone => ?_
      gapless := Or.inl ⟨reassembles_start hstart stripes, ⟨0, rfl⟩, streams_start hstart⟩
      dataSize := ?_
      returned := fun hret => (by cases hret) }
  · dsimp only at hdone
    rw [hnone] at hdone
    cases hdone
  · obtain rfl := Phase.seeding.inj hp
    exact ⟨fun x hx => (hlate x hx).2, hnone⟩
  · rw [hsize]
    constructor
    · intro h
      cases h
    · rintro ⟨l, hpre, -⟩
      have hnil : l ++ [Event.completed t.endNo 0] = [] := List.prefix_nil.mp hpre
      simp at hnil
  · dsimp only at hdone
    rw [hnone] at hdone
    cases hdone
  · rw [hsize]
    exact (Fifo.fresh_counts t.blockSize_pos).2.pos

end InTurn

/-- No false completion at a receiver.  In every run on packets of a transfer that arrive slice by
slice, also when the receiver joins late with slices that it has overheard: when the end is marked,
exactly the bytes of all slices have passed through `fifo.data`, and when the writer returns it has
written them. -/
theorem produce_end_inTurn (t : Transfer) (stripes exitWait : ℕ) (hlt : stripes < 2 ^ 31) (fifo : Fifo)
    (hfifo : Fifo.new t.blockSize = some fifo) (late : List (ℤ × ℤ × ℤ)) (last : ℤ)
    (hlate : ∀ x ∈ late, t.IsSlice x.1 x.2.1 ∧ x.1 ≤ last) (hlast : last ≤ t.endNo)
    (p : Receiver × ℤ)
    (hrun : Run.Reach (Run.observe step seeNo) (fun p a => Carried t stripes a ∧ Orderly p.2 a)
      (Receiver.start t.blockSize exitWait late fifo, last) p) :
    (p.1.atEnd = true → p.1.passed = t.slices.flatten) ∧
      (p.1.writer = .returned → p.1.output = t.slices.flatten) := by
  have hp := hrun.invariant (I := Turns t stripes)
    (turns_start t stripes exitWait hfifo hlate hlast) fun q a q' hq ha hs => by
      obtain ⟨hstep, hsee⟩ := Run.observe_eq_some.mp hs
      have hnext := hq.step hlt ha.1 ha.2 (step_cases hstep)
      rwa [← hsee] at hnext
  exact ⟨hp.passed_of_atEnd, fun hret => (hp.returned hret).2⟩

/-- The first slice has been overheard; then the ten slices and the end marker come, with some
repetitions, until the writer returns. -/
theorem produce_end_inTurn_tenSlices : ∃ r : Receiver, r.writer = .returned ∧
    r.output = List.replicate 20 0 := by
  have hexec : (Run.exec (Run.observe step seeNo) (fun p a => Plain tenSlices a ∧ Orderly p.2 a)
      (Receiver.start 1 500 [(0, 2, 0)] (Fifo.fresh 1), 0)
      (.seed :: eachOnce 10 ++ [block 9 1, .scan 0, .receive 0 0 (.reqack ⟨10, 0, 0⟩), .complete,
        .write, .writeConsumed, .writeProduced, .write])).map
      (fun p => decide (p.1.writer = .returned)) = some true := by decide +kernel
  obtain ⟨p, hp, hprop⟩ := Run.exists_reach_of_exec hexec
  have hret := of_decide_eq_true hprop
  have hlate : ∀ x ∈ [((0 : ℤ), (2 : ℤ), (0 : ℤ))], tenSlices.IsSlice x.1 x.2.1 ∧ x.1 ≤ 0 := by
    decide
  exact ⟨p.1, hret, (produce_end_inTurn tenSlices 1 500 (by decide) (Fifo.fresh 1)
    (Fifo.new_eq (by decide)) [(0, 2, 0)] 0 hlate (by decide) p
    (hp.mono fun _ _ ha => ⟨ha.1.carried, ha.2⟩)).2 hret⟩

end Udpcast.ReceiveData
