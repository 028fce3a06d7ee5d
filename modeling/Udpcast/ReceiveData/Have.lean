import Udpcast.ReceiveData.Answers
import Udpcast.ReceiveData.Holding
import Udpcast.ReceiveData.Stored

/-!
# The blocks that are there

A block that a receiver has stays, until its slice is on record.  A RETRANSMIT tells of no block that
is missing.
-/

namespace Udpcast.ReceiveData

open Receiver

/-- Block `k` of slice `n` is there: the slice is on record, or the slot that receives it has the
block. -/
def Held (r : Receiver) (n : ℤ) (k : ℕ) : Prop :=
  r.completed n = true ∨ ∃ i, (r.slices i).state = .receiving ∧ (r.slices i).sliceNo = n ∧
    (r.slices i).retransmitMap.getLsbD k = true

instance (r : Receiver) (n : ℤ) (k : ℕ) : Decidable (Held r n k) :=
  inferInstanceAs (Decidable (_ ∨ _))

/-- The blocks of which a RETRANSMIT has told are there. -/
def Told (r : Receiver) : Prop :=
  ∀ n rxmit map, Event.retransmit n rxmit map ∈ r.trace → ∀ k, map.getLsbD k = true → Held r n k

/-- A handler adds blocks to slot `i` of slice `s`, and tells of no other ones. -/
structure Grows (i : Fin 8) (s : ℤ) (r r' : Receiver) : Prop where
  there : ∀ k, (r.slices i).retransmitMap.getLsbD k = true →
    (r'.slices i).retransmitMap.getLsbD k = true
  tells : ∀ n rxmit map, Event.retransmit n rxmit map ∈ r'.trace →
    Event.retransmit n rxmit map ∈ r.trace ∨
      n = s ∧ ∀ k, map.getLsbD k = true → (r'.slices i).retransmitMap.getLsbD k = true

section Grows

variable {i : Fin 8} {s : ℤ} {r r₁ r' : Receiver}

theorem Grows.refl (i : Fin 8) (s : ℤ) (r : Receiver) : Grows i s r r :=
  ⟨fun _ => id, fun _ _ _ => Or.inl⟩

theorem Grows.trans (h : Grows i s r r₁) (h' : Grows i s r₁ r') : Grows i s r r' where
  there k hk := h'.there k (h.there k hk)
  tells n rxmit map hmem := by
    rcases h'.tells n rxmit map hmem with hmem | hnew
    · rcases h.tells n rxmit map hmem with hmem | ⟨hn, hmap⟩
      · exact Or.inl hmem
      · exact Or.inr ⟨hn, fun k hk => h'.there k (hmap k hk)⟩
    · exact Or.inr hnew

theorem Grows.modify {f : Slice → Slice}
    (h : (f (r.slices i)).retransmitMap = (r.slices i).retransmitMap) :
    Grows i s r (r.modify i f) := by
  constructor
  · intro k hk
    rw [modify_slices_self, h]
    exact hk
  · exact fun _ _ _ => Or.inl

theorem storeBlock_grows {g : ℕ} {row : List UInt8} (h : storeBlock r i g row = some r') :
    Grows i s r r' := by
  obtain ⟨hg, hslot, -, -⟩ := storeBlock_some h
  constructor
  · intro k hk
    rw [hslot, Bitmap.getLsbD_insert hg, hk, Bool.true_or]
  · intro n rxmit map hmem
    simp only [storeBlock, Option.bind_eq_bind, Option.bind_eq_some_iff] at h
    obtain ⟨fifo, -, m, -, h⟩ := h
    obtain rfl := Option.some.inj h
    rw [emit_trace] at hmem
    rcases List.mem_append.mp hmem with hmem | hmem
    · exact Or.inl hmem
    · cases List.mem_singleton.mp hmem

theorem storeInvariant_grows : StoreInvariant i (Grows i s r) where
  store _ hq _ _ _ hs := hq.trans (storeBlock_grows hs)
  phase _ hq := ⟨hq.there, hq.tells⟩

theorem checkSliceComplete_grows (h : checkSliceComplete r i = some r') : Grows i s r r' :=
  checkSliceComplete_invariant storeInvariant_grows (Grows.refl i s r) h

theorem learnBytes_grows (b : ℤ) : Grows i s r (r.learnBytes i b) := Grows.modify rfl

theorem receiveBlock_grows {msg : DataBlock} {payload : List UInt8}
    (h : receiveBlock r i msg payload = some r') : Grows i s r r' := by
  simp only [receiveBlock] at h
  split at h
  · obtain rfl := Option.some.inj h
    exact Grows.refl i s r
  split at h
  · obtain rfl := Option.some.inj h
    exact Grows.refl i s r
  split at h
  · obtain rfl := Option.some.inj h
    exact Grows.refl i s r
  obtain ⟨r₂, hstore, hcheck⟩ := Option.bind_eq_some_iff.mp h
  have hlearn : Grows i s r (if msg.bytes ≠ 0 then r.learnBytes i msg.bytes else r) := by
    split
    · exact learnBytes_grows _
    · exact Grows.refl i s r
  exact (hlearn.trans (storeBlock_grows hstore)).trans (checkSliceComplete_grows hcheck)

theorem receiveBlock_there {msg : DataBlock} {payload : List UInt8}
    (hstate : (r.slices i).state = .receiving) (hk : msg.blockNo < maxSliceSize)
    (h : receiveBlock r i msg payload = some r') :
    (r'.slices i).retransmitMap.getLsbD msg.blockNo = true := by
  simp only [receiveBlock] at h
  rw [if_neg (by simp [hstate]), if_neg (by omega)] at h
  split at h
  · rename_i hset
    obtain rfl := Option.some.inj h
    exact hset
  · obtain ⟨r₂, hstore, hcheck⟩ := Option.bind_eq_some_iff.mp h
    obtain ⟨hlt, hslot, -, -⟩ := storeBlock_some hstore
    have hgrows : Grows i msg.sliceNo r₂ r' := checkSliceComplete_grows hcheck
    apply hgrows.there
    rw [hslot, Bitmap.getLsbD_insert hlt, decide_eq_true rfl, Bool.or_true]

theorem receiveFec_grows {msg : FecBlock} {payload : List UInt8}
    (h : receiveFec r i msg payload = some r') : Grows i s r r' := by
  simp only [receiveFec] at h
  split at h
  · obtain rfl := Option.some.inj h
    exact Grows.refl i s r
  · have hlearn : Grows i s r (if msg.bytes ≠ 0 ∧ (r.slices i).bytesKnown = false
        then r.learnBytes i msg.bytes else r) := by
      split
      · exact learnBytes_grows _
      · exact Grows.refl i s r
    exact (hlearn.trans (Grows.modify rfl)).trans (checkSliceComplete_grows h)

theorem haveMap_subset {m map : Bitmap} {n k : ℕ} (h : haveMap m n = some map)
    (hk : map.getLsbD k = true) : m.getLsbD k = true := by
  refine Fold.foldlM_invariant (P := fun q => ∀ k, q.getLsbD k = true → m.getLsbD k = true)
    (fun j _ q q' hq hstep => ?_) (fun k hk => ?_) h k hk
  · obtain ⟨set, hset, hstep⟩ := Option.bind_eq_some_iff.mp hstep
    obtain ⟨hj, hbit⟩ := Bitmap.bitIsSet_eq_some.mp hset
    split at hstep
    · rename_i hset'
      rw [Bitmap.setBit_eq hj] at hstep
      obtain rfl := Option.some.inj hstep
      intro k hk
      rw [Bitmap.getLsbD_insert hj, Bool.or_eq_true, decide_eq_true_iff] at hk
      rcases hk with hk | rfl
      · exact hq k hk
      · exact hbit.trans hset'
    · obtain rfl := Option.some.inj hstep
      exact hq
  · rw [Bitmap.getLsbD_zero] at hk
    cases hk

theorem answerReqack_grows {msg : Reqack} (h : answerReqack r i msg = some r') :
    Grows i msg.sliceNo r r' := by
  simp only [answerReqack, Option.bind_eq_bind, Option.bind_eq_some_iff] at h
  obtain ⟨blocks, -, h⟩ := h
  have hlearn : Grows i msg.sliceNo r (r.learnBytes i msg.bytes) := learnBytes_grows _
  split at h
  · obtain rfl := Option.some.inj h
    refine ⟨hlearn.there, fun n rxmit map hmem => ?_⟩
    rcases List.mem_append.mp hmem with hmem | hmem
    · exact Or.inl hmem
    · cases List.mem_singleton.mp hmem
  · obtain ⟨map, hmap, h⟩ := Option.bind_eq_some_iff.mp h
    obtain rfl := Option.some.inj h
    refine ⟨hlearn.there, fun n rxmit map' hmem => ?_⟩
    rcases List.mem_append.mp hmem with hmem | hmem
    · exact Or.inl hmem
    · obtain ⟨rfl, -, rfl⟩ := Event.retransmit.inj (List.mem_singleton.mp hmem)
      exact Or.inr ⟨rfl, fun k hk => haveMap_subset hmap hk⟩

theorem fill_grows {d : Datagram} {b : ℤ} (hd : d.slice = some (s, b)) (h : fill r i d = some r') :
    Grows i s r r' := by
  cases d with
  | data msg payload => exact receiveBlock_grows h
  | fec msg payload => exact receiveFec_grows h
  | reqack msg =>
    obtain ⟨rfl, -⟩ := Prod.mk.inj (Option.some.inj hd)
    exact answerReqack_grows h
  | skipped => cases hd
  | unexpected => cases hd

end Grows

/-! ### All steps -/

section Held

variable {r r' : Receiver} {a : Action} {i : Fin 8}

theorem Opened.receiving {c : Option (Fin 8)} {s : ℤ} {j : Fin 8} {r₁ : Receiver}
    (h : Opened r c s j r₁) (hi : (r.slices i).state = .receiving) : r₁.slices i = r.slices i := by
  rcases h.slot with ⟨rfl, -, -⟩ | ⟨-, hstate, -, -, -⟩
  · rfl
  · apply h.frame.1
    rintro rfl
    exact hstate hi

theorem Opened.retransmit {c : Option (Fin 8)} {s : ℤ} {j : Fin 8} {r₁ : Receiver}
    (h : Opened r c s j r₁) {n rxmit : ℤ} {map : Bitmap}
    (hmem : Event.retransmit n rxmit map ∈ r₁.trace) : Event.retransmit n rxmit map ∈ r.trace := by
  rcases h.slot with ⟨rfl, -, -⟩ | ⟨-, -, htrace, -, -⟩
  · exact hmem
  · rw [htrace] at hmem
    rcases List.mem_append.mp hmem with hmem | hmem
    · exact hmem
    · cases List.mem_singleton.mp hmem

theorem Finished.record {j : Fin 8} (h : Finished r j r') (hj : (r.slices j).state = .receiving) :
    r'.completed (r.slices j).sliceNo = true := by
  cases h with
  | already hdone =>
    rw [hj] at hdone
    cases hdone
  | data _ _ _ hno _ _ _ => exact (completed_finishSlot hno _).mpr (Or.inl rfl)
  | atEnd _ hno _ _ => exact (completed_finishSlot hno _).mpr (Or.inl rfl)
  | incomplete _ hno _ _ => exact (completed_finishSlot hno _).mpr (Or.inl rfl)

theorem Finished.retransmit {j : Fin 8} (h : Finished r j r') {n rxmit : ℤ} {map : Bitmap}
    (hmem : Event.retransmit n rxmit map ∈ r'.trace) : Event.retransmit n rxmit map ∈ r.trace := by
  have hfinish : Event.retransmit n rxmit map ∈ (finishSlot r j).trace ++ [.ok (r.slices j).sliceNo] →
      Event.retransmit n rxmit map ∈ r.trace := by
    intro hmem
    rw [finishSlot, emit_trace, List.append_assoc] at hmem
    rcases List.mem_append.mp hmem with hmem | hmem
    · exact hmem
    · simp at hmem
  cases h with
  | already _ => exact hmem
  | data _ _ _ _ _ _ _ => exact hfinish hmem
  | atEnd _ _ _ _ => exact hfinish hmem
  | incomplete _ _ _ _ => exact hfinish hmem

/-- A slice that is being received keeps its slot and its blocks, or is on record. -/
theorem StepTo.receiving (hs : StepTo r a r') (hi : (r.slices i).state = .receiving) :
    (r'.slices i).state = .receiving ∧ (r'.slices i).sliceNo = (r.slices i).sliceNo ∧
        (∀ k, (r.slices i).retransmitMap.getLsbD k = true →
          (r'.slices i).retransmitMap.getLsbD k = true) ∨
      r'.completed (r.slices i).sliceNo = true := by
  have hsame : r'.slices i = r.slices i → (r'.slices i).state = .receiving ∧
      (r'.slices i).sliceNo = (r.slices i).sliceNo ∧
        (∀ k, (r.slices i).retransmitMap.getLsbD k = true →
          (r'.slices i).retransmitMap.getLsbD k = true) := by
    intro heq
    rw [heq]
    exact ⟨hi, rfl, fun _ => id⟩
  cases hs with
  | seeded _ => exact Or.inl (hsame rfl)
  | seedNoSlot _ _ => exact Or.inl (hsame rfl)
  | @seed s b _ _ j r₁ _ hopen =>
    left
    have hr₁ := hopen.receiving hi
    by_cases hij : i = j
    · subst hij
      show ((r₁.learnBytes i b).slices i).state = _ ∧ ((r₁.learnBytes i b).slices i).sliceNo = _ ∧
        ∀ k, _ → ((r₁.learnBytes i b).slices i).retransmitMap.getLsbD k = true
      rw [learnBytes_slices_self, hr₁]
      exact ⟨hi, rfl, fun _ => id⟩
    · apply hsame
      show (r₁.learnBytes j b).slices i = r.slices i
      rw [learnBytes, modify_slices_of_ne _ _ _ hij, hr₁]
  | expire _ _ _ => exact Or.inl (hsame rfl)
  | @skipped _ now _ => exact Or.inl (hsame (congrFun (armed_slices r now) i))
  | @ignored _ now _ _ _ _ => exact Or.inl (hsame (congrFun (armed_slices r now) i))
  | @answered _ now _ _ _ _ => exact Or.inl (hsame (congrFun (armed_slices r now) i))
  | @handled _ now d s b j r₁ _ _ hd hopen hfill hfilled _ _ _ =>
    left
    have hr₁ : r₁.slices i = r.slices i := by
      rw [hopen.receiving (by rw [armed_slices]; exact hi), armed_slices]
    have hstate := hfilled.slot_state i
    have hno := hfilled.slot_sliceNo i
    rw [hr₁] at hstate hno
    refine ⟨hstate.trans hi, hno, fun k hk => ?_⟩
    by_cases hij : i = j
    · subst hij
      apply (fill_grows hd hfill).there
      rw [hr₁]
      exact hk
    · rw [hfilled.others i hij, hr₁]
      exact hk
  | @complete j r₁ _ hfin =>
    by_cases hij : i = j
    · subst hij
      exact Or.inr (hfin.record hi)
    · exact Or.inl (hsame (hfin.frame.1 i hij))
  | @scan now _ =>
    left
    apply hsame
    rw [scanEnd]
    split
    · rfl
    · split
      · rfl
      · rfl
  | write _ hw =>
    obtain ⟨_, _, rfl⟩ := writeBlock_frame hw
    exact Or.inl (hsame rfl)
  | writeConsumed _ _ => exact Or.inl (hsame rfl)
  | writeProduced _ _ => exact Or.inl (hsame rfl)

theorem Held.step {n : ℤ} {k : ℕ} (h : Held r n k) (hused : CompletingUsed r)
    (hs : StepTo r a r') : Held r' n k := by
  rcases h with hdone | ⟨i, hi, rfl, hk⟩
  · exact Or.inl ((hs.change hused).completed_mono hdone)
  · rcases hs.receiving hi with ⟨hi', hno, hmap⟩ | hdone
    · exact Or.inr ⟨i, hi', hno, hmap k hk⟩
    · exact Or.inl hdone

/-- A RETRANSMIT that is sent tells of blocks that are there. -/
theorem StepTo.tells (hs : StepTo r a r') (hc : Consistent r) {n rxmit : ℤ} {map : Bitmap}
    (hmem : Event.retransmit n rxmit map ∈ r'.trace) :
    Event.retransmit n rxmit map ∈ r.trace ∨ ∀ k, map.getLsbD k = true → Held r' n k := by
  cases hs with
  | seeded _ => exact Or.inl hmem
  | seedNoSlot _ _ => exact Or.inl hmem
  | seed _ hopen => exact Or.inl (hopen.retransmit hmem)
  | expire _ _ _ => exact Or.inl hmem
  | @skipped _ now _ => exact Or.inl (by rwa [← armed_trace r now])
  | @ignored _ now _ _ _ _ => exact Or.inl (by rwa [← armed_trace r now])
  | @answered _ now _ _ _ _ =>
    rw [emit_trace, armed_trace] at hmem
    rcases List.mem_append.mp hmem with hmem | hmem
    · exact Or.inl hmem
    · cases List.mem_singleton.mp hmem
  | @handled _ now d s b j r₁ _ _ hd hopen hfill hfilled _ _ _ =>
    rcases (fill_grows hd hfill).tells n rxmit map hmem with hmem | ⟨rfl, hmap⟩
    · left
      rw [← armed_trace r now]
      exact hopen.retransmit hmem
    · right
      intro k hk
      have hno := hopen.sliceNo
      cases hstate : (r₁.slices j).state with
      | free => exact absurd hstate hopen.not_free
      | receiving =>
        exact Or.inr ⟨j, by rw [hfilled.state, hstate], by rw [hfilled.sliceNo, hno], hmap k hk⟩
      | done =>
        left
        obtain ⟨_, _, _, _, heq⟩ := hfilled.rest
        rcases hopen.slot with ⟨rfl, -, -⟩ | ⟨-, -, -, hclaimed, -⟩
        · rw [armed_slices] at hstate hno
          have hdone := hc.done j hstate
          rw [hno] at hdone
          rw [heq]
          exact (armed_completed r now n).trans hdone
        · rw [hclaimed] at hstate
          cases hstate
  | complete _ hfin => exact Or.inl (hfin.retransmit hmem)
  | @scan now _ =>
    left
    rw [scanEnd] at hmem
    split at hmem
    · exact hmem
    · split at hmem
      · exact hmem
      · exact hmem
  | write _ hw =>
    obtain ⟨_, _, rfl⟩ := writeBlock_frame hw
    exact Or.inl hmem
  | writeConsumed _ _ => exact Or.inl hmem
  | writeProduced _ _ => exact Or.inl hmem

theorem Told.step (h : Told r) (hc : Consistent r) (hused : CompletingUsed r)
    (hs : StepTo r a r') : Told r' := by
  intro n rxmit map hmem k hk
  rcases hs.tells hc hmem with hmem | hnew
  · exact (h n rxmit map hmem k hk).step hused hs
  · exact hnew k hk

theorem told_start (blockSize exitWait : ℕ) (late : List (ℤ × ℤ × ℤ)) (fifo : Fifo) :
    Told (Receiver.start blockSize exitWait late fifo) :=
  fun _ _ _ hmem => absurd hmem List.not_mem_nil

/-! ### The slot of a packet -/

/-- The slot of the current slice is in use. -/
def CurrentUsed (r : Receiver) : Prop := ∀ i, r.currentSlice = some i → (r.slices i).state ≠ .free

theorem Change.not_free (h : Change r a r') (hi : (r.slices i).state ≠ .free) :
    (r'.slices i).state ≠ .free := by
  cases h with
  | kept _ hsame _ _ =>
    rw [(hsame i).1]
    exact hi
  | @claimed j _ _ _ _ _ hsame hstate _ _ _ _ _ =>
    by_cases hij : i = j
    · rw [hij, hstate]
      exact SliceState.noConfusion
    · rw [(hsame i hij).1]
      exact hi
  | @completed j _ _ _ _ hother hself _ _ =>
    by_cases hij : i = j
    · rw [hij, hself]
      exact SliceState.noConfusion
    · rw [hother i hij]
      exact hi

theorem Opened.current {c : Option (Fin 8)} {s : ℤ} {j : Fin 8} {r₁ : Receiver}
    (h : Opened r c s j r₁) : r₁.currentSlice = r.currentSlice ∨ r₁.currentSlice = some j := by
  cases h with
  | found _ _ => exact Or.inl rfl
  | claimed _ _ _ hor _ => exact hor

theorem StepTo.current (hs : StepTo r a r') (hi : r'.currentSlice = some i) :
    r.currentSlice = some i ∨ (r'.slices i).state ≠ .free := by
  cases hs with
  | seeded _ => exact Or.inl hi
  | seedNoSlot _ _ => exact Or.inl hi
  | @seed s b _ _ j r₁ _ hopen =>
    rcases hopen.current with hcurrent | hcurrent
    · exact Or.inl (hcurrent ▸ hi)
    · obtain rfl := Option.some.inj (hcurrent.symm.trans hi)
      right
      show ((r₁.learnBytes j b).slices j).state ≠ .free
      rw [learnBytes_slices_self]
      exact hopen.not_free
  | expire _ _ _ => exact Or.inl hi
  | @skipped _ now _ => exact Or.inl ((armed_currentSlice r now).symm.trans hi)
  | @ignored _ now _ _ _ _ => exact Or.inl ((armed_currentSlice r now).symm.trans hi)
  | @answered _ now _ _ _ _ => exact Or.inl ((armed_currentSlice r now).symm.trans hi)
  | @handled _ now _ _ _ j r₁ _ _ _ hopen _ hfilled _ _ _ =>
    obtain ⟨_, _, _, _, heq⟩ := hfilled.rest
    have hsame : r'.currentSlice = r₁.currentSlice := by rw [heq]
    rcases hopen.current with hcurrent | hcurrent
    · left
      rw [← armed_currentSlice r now, ← hcurrent, ← hsame]
      exact hi
    · obtain rfl := Option.some.inj ((hsame.trans hcurrent).symm.trans hi)
      right
      rw [hfilled.state]
      exact hopen.not_free
  | complete _ hfin =>
    left
    cases hfin with
    | already _ => exact hi
    | data _ _ _ _ _ _ _ => exact hi
    | atEnd _ _ _ _ => exact hi
    | incomplete _ _ _ _ => exact hi
  | @scan now _ =>
    left
    rw [scanEnd] at hi
    split at hi
    · exact hi
    · split at hi
      · exact hi
      · exact hi
  | write _ hw =>
    obtain ⟨_, _, rfl⟩ := writeBlock_frame hw
    exact Or.inl hi
  | writeConsumed _ _ => exact Or.inl hi
  | writeProduced _ _ => exact Or.inl hi

theorem CurrentUsed.step (h : CurrentUsed r) (hused : CompletingUsed r) (hs : StepTo r a r') :
    CurrentUsed r' := by
  intro i hi
  rcases hs.current hi with hi | hstate
  · exact (hs.change hused).not_free (h i hi)
  · exact hstate

theorem currentUsed_start (blockSize exitWait : ℕ) (late : List (ℤ × ℤ × ℤ)) (fifo : Fifo) :
    CurrentUsed (Receiver.start blockSize exitWait late fifo) := fun i hi => by cases hi

theorem CurrentUsed.served (h : CurrentUsed r) (hfree : freeSlot r ≠ none) (s : ℤ) :
    ¬Unserved r r.currentSlice s := by
  rintro (⟨-, hnone⟩ | ⟨i, hfind, hstate⟩)
  · exact hfree hnone
  · rcases (findSlice_some hfind).2 with hused | hcurrent
    · exact hused hstate
    · exact h i hcurrent hstate

theorem StepTo.there {top now : ℕ} {msg : DataBlock} {payload : List UInt8}
    (hs : StepTo r (.receive top now (.data msg payload)) r') (hc : Consistent r)
    (hserved : ¬Unserved r r.currentSlice msg.sliceNo) (hk : msg.blockNo < maxSliceSize) :
    Held r' msg.sliceNo msg.blockNo := by
  cases hs with
  | ignored _ _ hunserved => exact absurd (hunserved _ _ rfl) hserved
  | @handled _ _ _ s b j r₁ _ _ hd hopen hfill hfilled hleft _ _ =>
    obtain ⟨rfl, -⟩ := Prod.mk.inj (Option.some.inj hd)
    have hno := hopen.sliceNo
    cases hstate : (r₁.slices j).state with
    | free => exact absurd hstate hopen.not_free
    | receiving =>
      exact Or.inr ⟨j, by rw [hfilled.state, hstate], by rw [hfilled.sliceNo, hno],
        receiveBlock_there hstate hk hfill⟩
    | done =>
      left
      rw [hleft rfl (by rw [hstate]; decide)]
      rcases hopen.slot with ⟨rfl, -, -⟩ | ⟨-, -, -, hclaimed, -⟩
      · rw [armed_slices] at hstate hno
        have hdone := hc.done j hstate
        rw [hno] at hdone
        exact (armed_completed r now _).trans hdone
      · rw [hclaimed] at hstate
        cases hstate

end Held

end Udpcast.ReceiveData
