import Udpcast.ReceiveData.Steps
import Udpcast.Transfer

/-!
# The slot table and the record over a run

A step keeps the slots, claims one, or completes one (`Change`).  On the datagrams of a transfer
every slot in use has the number and the size of a slice (`Sized`).
-/

namespace Udpcast.ReceiveData

open Receiver

/-! ### What an action brings -/

/-- The slice an action is about, with its size. -/
def brings (r : Receiver) : Action → Option (ℤ × ℤ)
  | .seed =>
    match r.phase with
    | .seeding ((s, b, _) :: _) => some (s, b)
    | _ => none
  | .receive _ _ d => d.slice
  | _ => none

def Action.isReqack : Action → Bool
  | .receive _ _ d => d.isReqack
  | _ => false

/-- The action sets the size of the slot also when the slot is done. -/
def Action.setsSize : Action → Bool
  | .seed => true
  | a => a.isReqack

def Action.lookAt (r : Receiver) : Action → Option (Fin 8)
  | .receive _ _ d => ReceiveData.lookAt r d
  | _ => none

/-- The slice that an action gives a new slot to. -/
def opens (r : Receiver) (a : Action) : Option ℤ :=
  (brings r a).bind fun (s, _) =>
    if findSlice r (a.lookAt r) s = none ∧ freeSlot r ≠ none ∧ (a.isReqack → r.completed s = false) then some s
    else none

/-- The slice for which a REQACK has the answer OK only because no slot can be had. -/
def noSlotOk (r : Receiver) : Action → Option ℤ
  | .receive _ _ (.reqack m) =>
    if findSlice r none m.sliceNo = none ∧ freeSlot r = none ∧ r.completed m.sliceNo = false
    then some m.sliceNo else none
  | _ => none

/-- The datagrams that arrive are of the transfer. -/
def Genuine (t : Transfer) : Action → Prop
  | .receive _ _ d => t.Describes d
  | _ => True

instance (t : Transfer) : (a : Action) → Decidable (Genuine t a)
  | .receive _ _ d => inferInstanceAs (Decidable (t.Describes d))
  | .seed | .expire _ | .complete | .scan _ | .write | .writeConsumed | .writeProduced =>
    inferInstanceAs (Decidable True)

/-- The states in which the receiver of a transfer can start. -/
def Starts (t : Transfer) (r : Receiver) : Prop :=
  ∃ exitWait late fifo, r = Receiver.start t.blockSize exitWait late fifo ∧
    Fifo.new t.blockSize = some fifo ∧ ∀ x ∈ late, t.IsSlice x.1 x.2.1

theorem completingUsed_of_starts {t : Transfer} {r : Receiver} (h : Starts t r) :
    CompletingUsed r := by
  obtain ⟨exitWait, late, fifo, rfl, -, -⟩ := h
  exact completingUsed_start _ _ _ _

theorem brings_seed {r : Receiver} {s b x : ℤ} {rest : List (ℤ × ℤ × ℤ)}
    (hphase : r.phase = .seeding ((s, b, x) :: rest)) : brings r .seed = some (s, b) := by
  rw [brings, hphase]

theorem opens_eq_some {r : Receiver} {a : Action} {s : ℤ} : opens r a = some s ↔
    (∃ b, brings r a = some (s, b)) ∧ findSlice r (a.lookAt r) s = none ∧ freeSlot r ≠ none ∧
      (a.isReqack → r.completed s = false) := by
  rw [opens, Option.bind_eq_some_iff]
  constructor
  · rintro ⟨⟨s', b⟩, hbrings, h⟩
    simp only at h
    split at h
    · rename_i hnew
      obtain rfl := Option.some.inj h
      exact ⟨⟨b, hbrings⟩, hnew⟩
    · cases h
  · rintro ⟨⟨b, hbrings⟩, hnew⟩
    exact ⟨(s, b), hbrings, if_pos hnew⟩

theorem opens_eq_none {r : Receiver} {a : Action} (h : ∀ s b, brings r a = some (s, b) →
    findSlice r (a.lookAt r) s = none → freeSlot r ≠ none → a.isReqack ∧ r.completed s = true) :
    opens r a = none := by
  by_contra hne
  obtain ⟨s, hs⟩ := Option.ne_none_iff_exists'.mp hne
  obtain ⟨⟨b, hb⟩, hfind, hfree, hreq⟩ := opens_eq_some.mp hs
  obtain ⟨hr, hdone⟩ := h s b hb hfind hfree
  rw [hreq hr] at hdone
  cases hdone

/-! ### The three changes -/

/-- An event other than a claim or a completion, in a step from `r` to `r'`. -/
inductive Quiet (r : Receiver) (a : Action) (r' : Receiver) : Event → Prop
  | wrote {j : Fin 8} : (r'.slices j).state = .receiving →
      Quiet r a r' (.wrote (r'.slices j).sliceNo)
  | completing {b : ℕ} {j : Fin 8} : r'.phase = .completing j → (r'.slices j).state ≠ .free →
      Complete b j r' → Quiet r a r' (.ok (r'.slices j).sliceNo)
  | onRecord {s : ℤ} : r.completed s = true → Quiet r a r' (.ok s)
  | noSlot {s : ℤ} : noSlotOk r a = some s → Quiet r a r' (.ok s)
  | retransmit {s rxmit : ℤ} {map : Bitmap} : Quiet r a r' (.retransmit s rxmit map)

/-- Slot `j` has the same state, slice, base and size, or the size that `a` brings. -/
def SameSlot (r : Receiver) (a : Action) (r' : Receiver) (j : Fin 8) : Prop :=
  (r'.slices j).state = (r.slices j).state ∧ (r'.slices j).sliceNo = (r.slices j).sliceNo ∧
    (r'.slices j).base = (r.slices j).base ∧
    ((r'.slices j).bytes = (r.slices j).bytes ∨
      (r.slices j).state ≠ .free ∧
        ∃ b, brings r a = some ((r.slices j).sliceNo, b) ∧ (r'.slices j).bytes = asUsize b ∧
          ((r.slices j).state = .receiving ∨ a.setsSize))

inductive Change (r : Receiver) (a : Action) (r' : Receiver) : Prop
  | kept : opens r a = none → (∀ j, SameSlot r a r' j) → r'.completedSlices = r.completedSlices →
      (∃ es, r'.trace = r.trace ++ es ∧ ∀ e ∈ es, Quiet r a r' e) → Change r a r'
  | claimed {i : Fin 8} {s b : ℤ} : opens r a = some s → brings r a = some (s, b) →
      (r.slices i).state ≠ .receiving → (∀ j, j ≠ i → SameSlot r a r' j) →
      (r'.slices i).state = .receiving → (r'.slices i).sliceNo = s →
      (r'.slices i).base = r.fifo.freeMemQueue.getConsumerPosition →
      (a.setsSize ∨ b ≠ 0 ∧ (∀ top now d, a = .receive top now d → d.blockInRange) →
        (r'.slices i).bytes = asUsize b) →
      r'.completedSlices = r.completedSlices →
      (∃ es, r'.trace = r.trace ++ .claimed s :: es ∧ ∀ e ∈ es, Quiet r a r' e) → Change r a r'
  | completed {i : Fin 8} : a = .complete → r.phase = .completing i →
      (r.slices i).state = .receiving → 0 ≤ (r.slices i).sliceNo →
      (∀ j, j ≠ i → r'.slices j = r.slices j) →
      r'.slices i = { r.slices i with state := .done } →
      (∀ s, r'.completed s = true ↔ s = (r.slices i).sliceNo ∨ r.completed s = true) →
      r'.trace = r.trace ++
        [.completed (r.slices i).sliceNo (r.slices i).bytes, .ok (r.slices i).sliceNo] →
      Change r a r'

theorem SameSlot.of_eq {r r' : Receiver} {a : Action} {j : Fin 8}
    (h : r'.slices j = r.slices j) : SameSlot r a r' j := by
  rw [SameSlot, h]
  exact ⟨rfl, rfl, rfl, Or.inl rfl⟩

theorem Change.of_eq {r r' : Receiver} {a : Action} (hopens : opens r a = none)
    (hs : r'.slices = r.slices) (hc : r'.completedSlices = r.completedSlices)
    (ht : r'.trace = r.trace) : Change r a r' :=
  Change.kept hopens (fun j => SameSlot.of_eq (by rw [hs])) hc
    ⟨[], by rw [ht, List.append_nil], fun _ he => absurd he List.not_mem_nil⟩

theorem Change.opened {r q r₁ r' : Receiver} {a : Action} {c : Option (Fin 8)} {s b : ℤ} {i : Fin 8}
    (hslices : q.slices = r.slices) (hrecord : q.completedSlices = r.completedSlices)
    (htrace : q.trace = r.trace) (hfifo : q.fifo = r.fifo) (hphase : ∀ j, q.phase ≠ .completing j)
    (hbrings : brings r a = some (s, b)) (hlook : a.lookAt r = c)
    (hopen : Opened q c s i r₁) (hfill : Filled (asUsize b) i r₁ r')
    (hnot : a.setsSize = false → (r₁.slices i).state ≠ .receiving → r' = r₁)
    (hsize : a.setsSize → (r'.slices i).bytes = asUsize b)
    (hreq : a.isReqack → r.completed s = true → r₁ = q)
    (hlearn : ∀ base, r₁.slices i = Slice.claimed base s → b ≠ 0 →
      (∀ top now d, a = .receive top now d → d.blockInRange) → (r'.slices i).bytes = asUsize b) :
    Change r a r' := by
  obtain ⟨hother, hp, -, -, -, -, hdone, -, -⟩ := hopen.frame
  obtain ⟨_, _, _, _, hrest⟩ := hfill.rest
  have hrecord' : r'.completedSlices = r.completedSlices := by rw [hrest, ← hrecord, ← hdone]
  obtain ⟨es, hes, hquiet⟩ := hfill.trace
  have hes' : ∀ e ∈ es, Quiet r a r' e := by
    intro e he
    rcases hquiet e he with ⟨rfl, hstate⟩ | ⟨rfl, hcomp⟩ | ⟨rx, map, rfl⟩
    · rw [← hfill.sliceNo]
      exact Quiet.wrote (by rw [hfill.state, hstate])
    · have hne : r₁.phase ≠ .completing i := by
        rw [hp]
        exact hphase i
      rw [← hfill.sliceNo]
      exact Quiet.completing hcomp (by rw [hfill.state]; exact hopen.not_free)
        (hfill.complete hcomp hne)
    · exact Quiet.retransmit
  rcases hopen.slot with ⟨rfl, hfound, hfree⟩ | ⟨hnew, hstate, htrace₁, hself, -⟩
  · rw [hslices] at hfound hfree
    have hopens : opens r a = none := opens_eq_none fun s' b' hb' hnone _ => by
      rw [hbrings] at hb'
      obtain ⟨rfl, rfl⟩ := Prod.mk.inj (Option.some.inj hb')
      exact absurd hfound (findSlice_none hnone i hfree)
    refine Change.kept hopens (fun j => ?_) hrecord' ⟨es, by rw [hes, htrace], hes'⟩
    by_cases hji : j = i
    · subst hji
      refine ⟨by rw [hfill.state, hslices], by rw [hfill.sliceNo, hslices],
        by rw [hfill.base, hslices], ?_⟩
      cases hr : a.setsSize with
      | true => exact Or.inr ⟨hfree, b, by rw [hbrings, hfound], hsize hr, Or.inr rfl⟩
      | false =>
        by_cases hrecv : (r.slices j).state = .receiving
        · rcases hfill.bytes_eq with hb | hb
          · exact Or.inl (by rw [hb, hslices])
          · exact Or.inr ⟨hfree, b, by rw [hbrings, hfound], hb, Or.inl hrecv⟩
        · rw [hnot hr (by rwa [hslices]), hslices]
          exact Or.inl rfl
    · exact SameSlot.of_eq (by rw [hfill.others j hji, hslices])
  · rw [hslices] at hstate
    rw [findSlice_congr hslices, ← hlook] at hnew
    have hopens : opens r a = some s := opens_eq_some.mpr ⟨⟨b, hbrings⟩, hnew,
      fun hnone => hstate (freeSlot_eq_none.mp hnone i), fun hr => by
        -- a REQACK for a slice on record does not claim a slot
        by_contra hdone
        have hsame := hreq hr (by simpa using hdone)
        rw [hsame, hslices] at hself
        exact hstate (by rw [hself]; rfl)⟩
    refine Change.claimed hopens hbrings hstate (fun j hji => ?_) (by rw [hfill.state, hself]; rfl)
      (by rw [hfill.sliceNo, hself]; rfl) (by rw [hfill.base, hself, hfifo]; rfl) (fun hbytes => ?_)
      hrecord' ⟨es, by rw [hes, htrace₁, htrace, List.append_assoc]; rfl, hes'⟩
    · exact SameSlot.of_eq (by rw [hfill.others j hji, hother j hji, hslices])
    · rcases hbytes with hr | ⟨hb, hrange⟩
      · exact hsize hr
      · exact hlearn _ hself hb hrange

theorem Change.finished {r r₁ : Receiver} {i : Fin 8} (hused : CompletingUsed r)
    (hphase : r.phase = .completing i) (hfin : Finished r i r₁) :
    Change r .complete { r₁ with phase := .scanning } := by
  have hreceiving : (r.slices i).state ≠ .done → (r.slices i).state = .receiving := by
    intro hdone
    cases hs : (r.slices i).state with
    | free => exact absurd hs (hused i hphase)
    | receiving => rfl
    | done => exact absurd hs hdone
  cases hfin with
  | already _ => exact Change.of_eq rfl rfl rfl rfl
  | data q₁ q₂ hdone hno _ _ _ =>
    exact Change.completed rfl hphase (hreceiving hdone) hno
      (fun j hj => finishSlot_slices_of_ne r hj) (finishSlot_slices_self r i)
      (completed_finishSlot hno) (List.append_assoc r.trace [_] [_])
  | atEnd hdone hno _ _ =>
    exact Change.completed rfl hphase (hreceiving hdone) hno
      (fun j hj => finishSlot_slices_of_ne r hj) (finishSlot_slices_self r i)
      (completed_finishSlot hno) (List.append_assoc r.trace [_] [_])
  | incomplete hdone hno _ _ =>
    exact Change.completed rfl hphase (hreceiving hdone) hno
      (fun j hj => finishSlot_slices_of_ne r hj) (finishSlot_slices_self r i)
      (completed_finishSlot hno) (List.append_assoc r.trace [_] [_])

theorem StepTo.done {r r' : Receiver} {i : Fin 8} (h : StepTo r .complete r')
    (hphase : r.phase = .completing i) : (r'.slices i).state = .done := by
  cases h with
  | @complete j r₁ hphase' hfin =>
    rw [hphase] at hphase'
    injection hphase' with hij
    subst hij
    have hself : ((finishSlot r i).slices i).state = .done := by rw [finishSlot_slices_self]
    cases hfin with
    | already hdone => exact hdone
    | data _ _ _ _ _ _ _ => exact hself
    | atEnd _ _ _ _ => exact hself
    | incomplete _ _ _ _ => exact hself

theorem StepTo.change {r r' : Receiver} {a : Action} (h : StepTo r a r') (hused : CompletingUsed r) :
    Change r a r' := by
  cases h with
  | seeded hphase => exact Change.of_eq (by rw [opens, brings, hphase]; rfl) rfl rfl rfl
  | seedNoSlot _ hnone =>
    exact Change.of_eq (opens_eq_none fun _ _ _ _ hfree => absurd hnone hfree) rfl rfl rfl
  | @seed s b x rest i r₁ hphase hopen =>
    have hfill : Filled (asUsize b) i { r₁ with phase := .seeding rest }
        { r₁.learnBytes i b with phase := .seeding rest } :=
      Filled.learnBytes i { r₁ with phase := .seeding rest } b
    have hbytes : ((r₁.learnBytes i b).slices i).bytes = asUsize b := by rw [learnBytes_slices_self]
    exact Change.opened (q := { r with phase := .seeding rest }) rfl rfl rfl rfl
      (fun j hj => by cases hj) (brings_seed hphase) rfl (hopen.withPhase _) hfill
      (fun h _ => by cases h) (fun _ => hbytes) (fun h _ => by cases h) (fun _ _ _ _ => hbytes)
  | expire _ _ _ => exact Change.of_eq rfl rfl rfl rfl
  | skipped _ =>
    exact Change.of_eq rfl (armed_slices r _) (armed_completedSlices r _) (armed_trace r _)
  | @ignored top now d _ _ hno =>
    refine Change.of_eq (opens_eq_none fun s b hb hfind hfree => ?_) (armed_slices r now)
      (armed_completedSlices r now) (armed_trace r now)
    rcases hno s b hb with ⟨-, hnone⟩ | ⟨i, hsome, -⟩
    · exact absurd hnone hfree
    · cases hsome.symm.trans hfind
  | @answered top now m _ hnew hok =>
    refine Change.kept (opens_eq_none fun s b hb _ hfree => ?_)
      (fun j => SameSlot.of_eq (armed_slices r now ▸ rfl)) (armed_completedSlices r now)
      ⟨[.ok m.sliceNo], by rw [emit_trace, armed_trace], fun e he => ?_⟩
    · obtain ⟨rfl, -⟩ := Prod.mk.inj (Option.some.inj hb)
      exact ⟨rfl, hok.resolve_right hfree⟩
    · obtain rfl := List.mem_singleton.mp he
      cases hdone : r.completed m.sliceNo with
      | true => exact Quiet.onRecord hdone
      | false =>
        exact Quiet.noSlot (if_pos ⟨hnew, hok.resolve_left (by simp [hdone]), hdone⟩)
  | @handled top now d s b i r₁ r' _ hd hopen _ hfill hnot hreq hlearn =>
    exact Change.opened (q := armed r now) (armed_slices r now) (armed_completedSlices r now)
      (armed_trace r now) (armed_fifo r now) (fun j => by simp) hd rfl hopen hfill hnot
      (fun h => (hreq h).1) (fun h hdone => (hreq h).2 hdone) fun base hself hb hrange =>
        hlearn base hself hb (hrange top now d rfl)
  | complete hphase hfin => exact Change.finished hused hphase hfin
  | scan _ =>
    rw [scanEnd]
    split
    · exact Change.of_eq rfl rfl rfl rfl
    · split
      · exact Change.of_eq rfl rfl rfl rfl
      · exact Change.of_eq rfl rfl rfl rfl
  | write _ hw =>
    obtain ⟨_, _, rfl⟩ := writeBlock_frame hw
    exact Change.of_eq rfl rfl rfl rfl
  | writeConsumed _ _ => exact Change.of_eq rfl rfl rfl rfl
  | writeProduced _ _ => exact Change.of_eq rfl rfl rfl rfl

theorem Quiet.not_completed {r r' : Receiver} {a : Action} {e : Event} (h : Quiet r a r' e)
    (s : ℤ) (n : ℕ) : e ≠ .completed s n := by
  cases h with
  | wrote _ => simp
  | completing _ _ _ => simp
  | onRecord _ => simp
  | noSlot _ => simp
  | retransmit => simp

theorem StepTo.seeding {r r' : Receiver} {a : Action} {late' : List (ℤ × ℤ × ℤ)}
    (h : StepTo r a r') (hp : r'.phase = .seeding late') :
    ∃ late, r.phase = .seeding late ∧ late' ⊆ late := by
  cases h with
  | seeded _ => cases hp
  | seedNoSlot hphase _ =>
    injection hp with hlate
    exact ⟨_, hphase, hlate ▸ List.subset_cons_self _ _⟩
  | seed hphase _ =>
    injection hp with hlate
    exact ⟨_, hphase, hlate ▸ List.subset_cons_self _ _⟩
  | expire _ _ _ => cases hp
  | skipped _ => cases hp
  | ignored _ _ _ =>
    rw [armed_phase] at hp
    cases hp
  | answered _ _ _ =>
    rw [emit_phase, armed_phase] at hp
    cases hp
  | handled _ _ hopen _ hfill _ _ _ =>
    rcases hfill.phase with hp' | hp'
    · rw [hp', hopen.frame.2.1, armed_phase] at hp
      cases hp
    · rw [hp'] at hp
      cases hp
  | complete _ _ => cases hp
  | scan _ =>
    rw [scanEnd] at hp
    split at hp
    · cases hp
    · split at hp
      · cases hp
      · cases hp
  | write _ hw =>
    obtain ⟨_, _, rfl⟩ := writeBlock_frame hw
    exact ⟨late', hp, List.Subset.refl _⟩
  | writeConsumed _ _ => exact ⟨late', hp, List.Subset.refl _⟩
  | writeProduced _ _ => exact ⟨late', hp, List.Subset.refl _⟩

/-! ### The slots of a transfer -/

/-- The slots in use have the numbers and the sizes of slices. -/
structure Sized (t : Transfer) (r : Receiver) : Prop where
  isSlice : ∀ i, (r.slices i).state ≠ .free → t.IsSlice (r.slices i).sliceNo (r.slices i).bytes
  late : ∀ late, r.phase = .seeding late → ∀ x ∈ late, t.IsSlice x.1 x.2.1
  completions : ∀ s n, Event.completed s n ∈ r.trace → t.IsSlice s n

section Sized

variable {t : Transfer} {r r' : Receiver} {a : Action}

theorem Sized.brings (h : Sized t r) (hgen : Genuine t a) {s b : ℤ}
    (hb : brings r a = some (s, b)) : t.IsSlice s b := by
  cases a with
  | seed =>
    simp only [ReceiveData.brings] at hb
    split at hb
    · rename_i hphase
      obtain ⟨rfl, rfl⟩ := Prod.mk.inj (Option.some.inj hb)
      exact h.late _ hphase _ List.mem_cons_self
    · cases hb
  | receive top now d => exact Transfer.Describes.isSlice hgen hb
  | expire _ => cases hb
  | complete => cases hb
  | scan _ => cases hb
  | write => cases hb
  | writeConsumed => cases hb
  | writeProduced => cases hb

/-- A slot that is claimed learns its size at once: the end marker has only REQACKs. -/
theorem Genuine.learns (hgen : Genuine t a) {s b : ℤ} (hb : ReceiveData.brings r a = some (s, b))
    (hslice : t.IsSlice s b) :
    a.setsSize ∨ b ≠ 0 ∧ ∀ top now d, a = .receive top now d → d.blockInRange := by
  cases a with
  | seed => exact Or.inl rfl
  | receive top now d =>
    cases hreq : d.isReqack with
    | true => exact Or.inl hreq
    | false =>
      have hpos := Transfer.Describes.size_pos hgen hb hreq
      have hsize := hslice.2.2
      refine Or.inr ⟨by omega, fun _ _ _ he => ?_⟩
      injection he with _ _ he
      rw [← he]
      exact Transfer.Describes.blockInRange hgen
  | expire _ => cases hb
  | complete => cases hb
  | scan _ => cases hb
  | write => cases hb
  | writeConsumed => cases hb
  | writeProduced => cases hb

theorem SameSlot.isSlice {j : Fin 8} (h : SameSlot r a r' j) (hr : Sized t r)
    (hgen : Genuine t a) (hj : (r'.slices j).state ≠ .free) :
    t.IsSlice (r'.slices j).sliceNo (r'.slices j).bytes := by
  obtain ⟨hstate, hno, -, hbytes⟩ := h
  rw [hstate] at hj
  rw [hno]
  rcases hbytes with hb | ⟨-, b, hbrings, hb, -⟩
  · rw [hb]
    exact hr.isSlice j hj
  · have hslice := hr.brings hgen hbrings
    rw [hb, t.asUsize_size hslice]
    exact ⟨hslice.1, hslice.2.1, rfl⟩

theorem Sized.step (h : Sized t r) (hused : CompletingUsed r) (hgen : Genuine t a)
    (hs : StepTo r a r') : Sized t r' := by
  have hlate : ∀ late, r'.phase = .seeding late → ∀ x ∈ late, t.IsSlice x.1 x.2.1 := by
    intro late hp x hx
    obtain ⟨late₀, hp₀, hsub⟩ := hs.seeding hp
    exact h.late late₀ hp₀ x (hsub hx)
  cases hs.change hused with
  | kept _ hsame _ htrace =>
    obtain ⟨es, ht, hquiet⟩ := htrace
    refine ⟨fun i hi => (hsame i).isSlice h hgen hi, hlate, fun s n hn => ?_⟩
    rw [ht] at hn
    rcases List.mem_append.mp hn with hn | hn
    · exact h.completions s n hn
    · exact absurd rfl ((hquiet _ hn).not_completed s n)
  | @claimed i s b _ hbrings _ hsame _ hno _ hlearn _ htrace =>
    obtain ⟨es, ht, hquiet⟩ := htrace
    have hslice := h.brings hgen hbrings
    refine ⟨fun j hj => ?_, hlate, fun s n hn => ?_⟩
    · by_cases hji : j = i
      · rw [hji, hno, hlearn (Genuine.learns hgen hbrings hslice), t.asUsize_size hslice]
        exact ⟨hslice.1, hslice.2.1, rfl⟩
      · exact (hsame j hji).isSlice h hgen hj
    · rw [ht] at hn
      rcases List.mem_append.mp hn with hn | hn
      · exact h.completions s n hn
      · rcases List.mem_cons.mp hn with hn | hn
        · cases hn
        · exact absurd rfl ((hquiet _ hn).not_completed s n)
  | @completed i _ _ hstate _ hother hself _ htrace =>
    have hslot : ∀ j, (r'.slices j).sliceNo = (r.slices j).sliceNo ∧
        (r'.slices j).bytes = (r.slices j).bytes ∧
        ((r'.slices j).state ≠ .free → (r.slices j).state ≠ .free) := by
      intro j
      by_cases hji : j = i
      · rw [hji, hself]
        exact ⟨rfl, rfl, fun _ => by simp [hstate]⟩
      · rw [hother j hji]
        exact ⟨rfl, rfl, id⟩
    refine ⟨fun j hj => ?_, hlate, fun s n hn => ?_⟩
    · rw [(hslot j).1, (hslot j).2.1]
      exact h.isSlice j ((hslot j).2.2 hj)
    · rw [htrace] at hn
      rcases List.mem_append.mp hn with hn | hn
      · exact h.completions s n hn
      · simp only [List.mem_cons, Event.completed.injEq, reduceCtorEq, List.not_mem_nil, or_self,
          or_false] at hn
        rw [hn.1, hn.2]
        exact h.isSlice i (by simp [hstate])

theorem sized_start (h : Starts t r) : Sized t r := by
  obtain ⟨exitWait, late, fifo, rfl, -, hlate⟩ := h
  refine ⟨fun i hi => absurd rfl hi, fun l hl x hx => ?_, fun s n hn => absurd hn List.not_mem_nil⟩
  injection hl with hl
  exact hlate x (hl ▸ hx)

theorem Sized.bytes_eq (h : Sized t r) {i : Fin 8} (hi : (r.slices i).state ≠ .free) :
    (r.slices i).bytes = t.size (r.slices i).sliceNo := Int.ofNat.inj (h.isSlice i hi).2.2

theorem Sized.bytes_receiving (h : Sized t r) {i : Fin 8} (hi : (r.slices i).state = .receiving) :
    (r.slices i).bytes = t.size (r.slices i).sliceNo := h.bytes_eq (by simp [hi])

end Sized

/-! ### The record -/

/-- The slots in use are for different slices; `completed_slices` has the slices for which
`complete_slice` has run, and those of the slots that are done are among them. -/
structure Consistent (r : Receiver) : Prop where
  unique : ∀ i j, (r.slices i).state ≠ .free → (r.slices j).state ≠ .free →
    (r.slices i).sliceNo = (r.slices j).sliceNo → i = j
  record : ∀ s, r.completed s = true ↔ ∃ n, Event.completed s n ∈ r.trace
  done : ∀ i, (r.slices i).state = .done → r.completed (r.slices i).sliceNo = true

theorem completed_congr {r r' : Receiver} (h : r'.completedSlices = r.completedSlices) (s : ℤ) :
    r'.completed s = r.completed s := by
  rw [completed, completed, h]

theorem Consistent.append {r r' : Receiver} (h : Consistent r) {es : List Event}
    (hc : r'.completedSlices = r.completedSlices) (ht : r'.trace = r.trace ++ es)
    (hes : ∀ e ∈ es, ∀ s n, e ≠ .completed s n) (s : ℤ) :
    r'.completed s = true ↔ ∃ n, Event.completed s n ∈ r'.trace := by
  rw [completed_congr hc, h.record s, ht]
  constructor
  · rintro ⟨n, hn⟩
    exact ⟨n, List.mem_append_left _ hn⟩
  · rintro ⟨n, hn⟩
    rcases List.mem_append.mp hn with hn | hn
    · exact ⟨n, hn⟩
    · exact absurd rfl (hes _ hn s n)

/-- The slots in use are for different slices after a step that claims slot `i` for `s`. -/
theorem Consistent.unique_claimed {r r' : Receiver} {a : Action} {i : Fin 8} {s : ℤ}
    (h : Consistent r) (hnew : ∀ j, (r.slices j).state ≠ .free → (r.slices j).sliceNo ≠ s)
    (hsame : ∀ j, j ≠ i → SameSlot r a r' j) (hno : (r'.slices i).sliceNo = s) (j k : Fin 8)
    (hj : (r'.slices j).state ≠ .free) (hk : (r'.slices k).state ≠ .free)
    (hjk : (r'.slices j).sliceNo = (r'.slices k).sliceNo) : j = k := by
  have hother : ∀ l, l ≠ i → (r'.slices l).state ≠ .free → (r'.slices l).sliceNo ≠ s := by
    intro l hli hl
    rw [(hsame l hli).1] at hl
    rw [(hsame l hli).2.1]
    exact hnew l hl
  by_cases hji : j = i
  · by_cases hki : k = i
    · rw [hji, hki]
    · rw [hji, hno] at hjk
      exact absurd hjk.symm (hother k hki hk)
  · by_cases hki : k = i
    · rw [hki, hno] at hjk
      exact absurd hjk (hother j hji hj)
    · rw [(hsame j hji).1] at hj
      rw [(hsame k hki).1] at hk
      rw [(hsame j hji).2.1, (hsame k hki).2.1] at hjk
      exact h.unique j k hj hk hjk

theorem Consistent.change {r r' : Receiver} {a : Action} (h : Consistent r) (hc : Change r a r') :
    Consistent r' := by
  cases hc with
  | kept _ hsame hrecord htrace =>
    obtain ⟨es, ht, hquiet⟩ := htrace
    refine ⟨fun i j hi hj hij => ?_, h.append hrecord ht fun e he => (hquiet e he).not_completed,
      fun i hi => ?_⟩
    · rw [(hsame i).1] at hi
      rw [(hsame j).1] at hj
      rw [(hsame i).2.1, (hsame j).2.1] at hij
      exact h.unique i j hi hj hij
    · rw [(hsame i).1] at hi
      rw [completed_congr hrecord, (hsame i).2.1]
      exact h.done i hi
  | @claimed i s b hopens _ _ hsame hstate hno _ _ hrecord htrace =>
    obtain ⟨es, ht, hquiet⟩ := htrace
    refine ⟨h.unique_claimed (findSlice_none (opens_eq_some.mp hopens).2.1) hsame hno,
      h.append hrecord ht fun e he => ?_, fun j hj => ?_⟩
    · rcases List.mem_cons.mp he with rfl | he
      · simp
      · exact (hquiet e he).not_completed
    · by_cases hji : j = i
      · rw [hji, hstate] at hj
        cases hj
      · rw [(hsame j hji).1] at hj
        rw [completed_congr hrecord, (hsame j hji).2.1]
        exact h.done j hj
  | @completed i _ _ hstate _ hother hself hrecord htrace =>
    have hslot : ∀ j, (r'.slices j).sliceNo = (r.slices j).sliceNo ∧
        ((r'.slices j).state ≠ .free → (r.slices j).state ≠ .free) := by
      intro j
      by_cases hji : j = i
      · rw [hji, hself]
        exact ⟨rfl, fun _ => by simp [hstate]⟩
      · rw [hother j hji]
        exact ⟨rfl, id⟩
    refine ⟨fun j k hj hk hjk => ?_, fun s => ?_, fun j hj => ?_⟩
    · rw [(hslot j).1, (hslot k).1] at hjk
      exact h.unique j k ((hslot j).2 hj) ((hslot k).2 hk) hjk
    · rw [hrecord s, h.record s, htrace]
      constructor
      · rintro (rfl | ⟨n, hn⟩)
        · exact ⟨_, List.mem_append_right _ List.mem_cons_self⟩
        · exact ⟨n, List.mem_append_left _ hn⟩
      · rintro ⟨n, hn⟩
        rcases List.mem_append.mp hn with hn | hn
        · exact Or.inr ⟨n, hn⟩
        · exact Or.inl (by simp at hn; exact hn.1)
    · rw [hrecord]
      by_cases hji : j = i
      · rw [hji, hself]
        exact Or.inl rfl
      · rw [hother j hji] at hj ⊢
        exact Or.inr (h.done j hj)

theorem consistent_start (blockSize exitWait : ℕ) (late : List (ℤ × ℤ × ℤ)) (fifo : Fifo) :
    Consistent (Receiver.start blockSize exitWait late fifo) where
  unique _ _ hi := absurd rfl hi
  record s := by simp [Receiver.start, Receiver.completed]
  done i hi := by cases hi

theorem consistent_of_starts {t : Transfer} {r : Receiver} (h : Starts t r) : Consistent r := by
  obtain ⟨exitWait, late, fifo, rfl, -, -⟩ := h
  exact consistent_start _ _ _ _

/-! ### A receiver of ten slices -/

/-- A receiver of `tenSlices`, with an exit wait of 500. -/
def tenSlicesStart : Receiver := Receiver.start 1 500 [] (Fifo.fresh 1)

theorem tenSlicesStart_starts : Starts tenSlices tenSlicesStart :=
  ⟨500, [], _, rfl, Fifo.new_eq (by decide), by decide⟩

/-- A block of a slice arrives. -/
def block (sliceNo : ℤ) (blockNo : ℕ) : Action := .receive 0 0 (.data ⟨sliceNo, blockNo, 2⟩ [0])

/-- Each of the first `k` slices is received and completed before the next one. -/
def eachOnce (k : ℕ) : List Action :=
  .seed :: (List.range k).flatMap fun (s : ℕ) =>
    [block s 0, .scan 0, block s 1, .complete, .scan 0]

end Udpcast.ReceiveData
