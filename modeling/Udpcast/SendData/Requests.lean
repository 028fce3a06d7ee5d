import Udpcast.SendData.Returns
import Udpcast.SendData.Rounds

/-!
# The requests of a slice

A participant asks for blocks of a slice when it has answered in the round without being ready.
-/

namespace Udpcast.SendData

open Sender

/-- The participant has answered in the round of the slice, and is not ready. -/
def Slice.Asks (s : Slice) (cl : ℕ) : Prop :=
  s.state = .xmitted ∧ s.answeredSet.getLsbD cl = true ∧ s.readySet.getLsbD cl = false

instance (s : Slice) (cl : ℕ) : Decidable (s.Asks cl) := inferInstanceAs (Decidable (_ ∧ _ ∧ _))

/-- Who asks has asked before, and the blocks that were wanted still are. -/
def AsksOn (s s' : Slice) : Prop :=
  ∀ cl, s'.Asks cl → s.Asks cl ∧ s'.sliceNo = s.sliceNo ∧
    ∀ k, s.rxmitMap.getLsbD k = true → s'.rxmitMap.getLsbD k = true

/-- Who asks after a step has asked before it, or has its RETRANSMIT dispatched in it. -/
def Requests (x x' : Sender) : Prop :=
  ∀ i cl, (x'.slices i).Asks cl →
    ((x.slices i).Asks cl ∧ (x'.slices i).sliceNo = (x.slices i).sliceNo ∧
      ∀ k, (x.slices i).rxmitMap.getLsbD k = true → (x'.slices i).rxmitMap.getLsbD k = true) ∨
    ∃ map rxmit, x.msgs.head? = some (.retransmit (x'.slices i).sliceNo cl map rxmit) ∧
      ∀ k < 1024, map.getLsbD k = false → (x'.slices i).rxmitMap.getLsbD k = true

section Requests

variable {x x' : Sender} {a : Action} {s : Slice} {cl : ℕ}

theorem AsksOn.refl (s : Slice) : AsksOn s s := fun _ h => ⟨h, rfl, fun _ => id⟩

theorem AsksOn.of_ne (h : s.state ≠ .xmitted) (s' : Slice) : AsksOn s' s :=
  fun _ hasks => absurd hasks.1 h

theorem asksOn_nextRound (s s' : Slice) : AsksOn s' s.nextRound := by
  rintro cl ⟨-, hanswered, hready⟩
  change s.readySet.getLsbD cl = true at hanswered
  change s.readySet.getLsbD cl = false at hready
  rw [hready] at hanswered
  cases hanswered

theorem asksOn_modify {f : Slice → Slice} {i : Fin 8} (h : AsksOn (x.slices i) (f (x.slices i)))
    (j : Fin 8) : AsksOn (x.slices j) ((x.modify i f).slices j) := by
  by_cases hji : j = i
  · subst hji
    rw [modify_slices_self]
    exact h
  · rw [modify_slices_of_ne _ _ _ hji]
    exact AsksOn.refl _

theorem asksOn_requested (x : Sender) (i j : Fin 8) (rxmitId : ℤ) :
    AsksOn (x.slices j) ((requested (bumped x i rxmitId) i).slices j) := by
  by_cases hji : j = i
  · subst hji
    rw [requested_slices_self]
    exact asksOn_nextRound _ _
  · rw [requested_slices_of_ne _ hji, bumped_slices_of_ne _ _ hji]
    exact AsksOn.refl _

theorem mem_join {set : Bitmap} {n a k : ℕ} :
    (join set n a).1.getLsbD k = true ↔ set.getLsbD k = true ∨ k = a ∧ k < 1024 := by
  rw [join]
  split
  · rename_i hin
    refine ⟨Or.inl, ?_⟩
    rintro (hk | ⟨rfl, -⟩)
    · exact hk
    · exact hin
  · rw [Bitmap.insert, BitVec.getLsbD_or, BitVec.getLsbD_twoPow, Bool.or_eq_true, Bool.and_eq_true,
      decide_eq_true_iff, decide_eq_true_iff]
    constructor
    · rintro (hk | ⟨hlt, rfl⟩)
      · exact Or.inl hk
      · exact Or.inr ⟨rfl, hlt⟩
    · rintro (hk | ⟨rfl, hlt⟩)
      · exact Or.inl hk
      · exact Or.inr ⟨hlt, rfl⟩

theorem asksOn_ready (s : Slice) (cl : ℕ) : AsksOn s (s.ready cl) := by
  rw [ready_eq]
  rintro k ⟨hstate, hanswered, hready⟩
  have hnot : ¬(s.readySet.getLsbD k = true ∨ k = cl ∧ k < 1024) := by
    rw [← mem_join (n := s.nrReady), hready]
    exact Bool.false_ne_true
  rcases mem_join.mp hanswered with hk | ⟨rfl, hlt⟩
  · exact ⟨⟨hstate, hk, Bool.eq_false_iff.mpr fun hin => hnot (Or.inl hin)⟩, rfl, fun _ => id⟩
  · exact absurd (Or.inr ⟨rfl, hlt⟩) hnot

theorem asksOn_forget (s : Slice) (cl : ℕ) : AsksOn s (s.forget cl) := by
  rw [forget_eq]
  rintro k ⟨hstate, hanswered, hready⟩
  rw [getLsbD_leave, Bool.and_eq_true] at hanswered
  rw [getLsbD_leave, hanswered.2, Bool.and_true] at hready
  exact ⟨⟨hstate, hanswered.1, hready⟩, rfl, fun _ => id⟩

theorem asks_missing {map : Bitmap} {k : ℕ} (h : (s.missing cl map).Asks k) :
    (s.Asks k ∨ k = cl) ∧ (s.missing cl map).sliceNo = s.sliceNo ∧
      (∀ b, s.rxmitMap.getLsbD b = true → (s.missing cl map).rxmitMap.getLsbD b = true) ∧
        ∀ b < 1024, map.getLsbD b = false → (s.missing cl map).rxmitMap.getLsbD b = true := by
  rw [missing_eq] at h ⊢
  obtain ⟨hstate, hanswered, hready⟩ := h
  refine ⟨?_, rfl, fun b hb => ?_, fun b hb hmap => ?_⟩
  · rcases mem_join.mp hanswered with hk | ⟨rfl, -⟩
    · exact Or.inl ⟨hstate, hk, hready⟩
    · exact Or.inr rfl
  · show (s.rxmitMap ||| ~~~map).getLsbD b = true
    rw [BitVec.getLsbD_or, hb, Bool.true_or]
  · show (s.rxmitMap ||| ~~~map).getLsbD b = true
    rw [BitVec.getLsbD_or, BitVec.getLsbD_not, decide_eq_true hb, hmap, Bool.not_false,
      Bool.and_self, Bool.or_true]

theorem Requests.of_asksOn (hs : ∀ i, AsksOn (x.slices i) (x'.slices i)) : Requests x x' :=
  fun i cl h => Or.inl (hs i cl h)

theorem asks_answer {find : ℤ → Option (Fin 8)} {i : Fin 8} {m : IncomingMsg} {k : ℕ}
    (h : (Slice.answer find i s m).Asks k) :
    (s.Asks k ∧ (Slice.answer find i s m).sliceNo = s.sliceNo ∧ ∀ b,
      s.rxmitMap.getLsbD b = true → (Slice.answer find i s m).rxmitMap.getLsbD b = true) ∨
    ∃ no map rxmit, m = .retransmit no k map rxmit ∧ find no = some i ∧
      (Slice.answer find i s m).sliceNo = s.sliceNo ∧
      ∀ b < 1024, map.getLsbD b = false → (Slice.answer find i s m).rxmitMap.getLsbD b = true := by
  cases m with
  | ok no cl =>
    rw [Slice.answer] at h ⊢
    by_cases hfind : find no = some i
    · rw [if_pos hfind] at h ⊢
      exact Or.inl (asksOn_ready s cl k h)
    · rw [if_neg hfind] at h ⊢
      exact Or.inl (AsksOn.refl s k h)
  | retransmit no cl map rxmit =>
    rw [Slice.answer] at h ⊢
    by_cases hfind : find no = some i
    · rw [if_pos hfind] at h ⊢
      obtain ⟨hasks, hno, hgrows, hmissing⟩ := asks_missing h
      rcases hasks with hasks | rfl
      · exact Or.inl ⟨hasks, hno, hgrows⟩
      · exact Or.inr ⟨no, map, rxmit, rfl, hfind, hno, hmissing⟩
    · rw [if_neg hfind] at h ⊢
      exact Or.inl (AsksOn.refl s k h)
  | disconnect cl => exact Or.inl (asksOn_forget s cl k h)

theorem Requests.message {m : IncomingMsg} {rest : List IncomingMsg} (hmsgs : x.msgs = m :: rest) :
    Requests x (handleMessage { x with msgs := rest } m) := by
  intro i cl h
  rw [slices_handleMessage] at h ⊢
  rcases asks_answer h with hold | ⟨no, map, rxmit, rfl, hfind, hno, hmissing⟩
  · exact Or.inl hold
  · right
    refine ⟨map, rxmit, ?_, hmissing⟩
    rw [hmsgs, hno, (findSlice_some hfind).2]
    rfl

theorem StepTo.requests (hs : StepTo x a x') (hc : Control x) : Requests x x' := by
  cases hs with
  | dispatch _ hmsgs => exact Requests.message hmsgs
  | @acked i rest nr fr c q _ _ _ _ =>
    apply Requests.of_asksOn
    intro j
    show AsksOn _ ((released x i c q).slices j)
    by_cases hji : j = i
    · rw [hji, released_slices_self]
      exact AsksOn.of_ne SliceState.noConfusion _
    · rw [released_slices_of_ne _ _ _ hji]
      exact AsksOn.refl _
  | @rexmit i rest fl map good ds _ _ =>
    apply Requests.of_asksOn
    exact asksOn_modify (f := fun s => s.rexmitted map good) (i := i) fun _ h => ⟨h, rfl, fun _ => id⟩
  | @reqack i rest nr fr rxmitId _ _ =>
    apply Requests.of_asksOn
    exact fun j => asksOn_requested x i j rxmitId
  | asyncRound h => exact absurd h hc.not_asyncRound
  | @form pos bytes m data _ _ _ _ _ _ _ =>
    apply Requests.of_asksOn
    intro j
    by_cases hjp : j = pos
    · rw [hjp, formed_slices_self]
      exact AsksOn.of_ne SliceState.noConfusion _
    · rw [formed_slices_of_ne _ _ _ hjp]
      exact AsksOn.refl _
  | @encode i fecData _ _ =>
    apply Requests.of_asksOn
    exact asksOn_modify (f := fun s => { s with fecData := fecData }) (i := i)
      fun _ h => ⟨h, rfl, fun _ => id⟩
  | @transmit i ds _ _ _ =>
    apply Requests.of_asksOn
    intro j
    show AsksOn _ ((requested (transmitted x i ds) i).slices j)
    by_cases hji : j = i
    · subst hji
      rw [requested_slices_self]
      exact asksOn_nextRound _ _
    · rw [requested_slices_of_ne _ hji, transmitted_slices_of_ne _ _ hji]
      exact AsksOn.refl _
  | @transmitAsync i ds c q _ _ _ _ _ =>
    apply Requests.of_asksOn
    intro j
    show AsksOn _ ((released (x.send ds) i c q).slices j)
    by_cases hji : j = i
    · rw [hji, released_slices_self]
      exact AsksOn.of_ne SliceState.noConfusion _
    · rw [released_slices_of_ne _ _ _ hji]
      exact AsksOn.refl _
  | @timeout i rest rxmitId _ _ =>
    apply Requests.of_asksOn
    exact fun j => asksOn_requested { x with db := afterDrop x i } i j rxmitId
  | readerWait _ hw =>
    rcases readerWait_frame hw with rfl | ⟨_, _, rfl⟩
    · exact Requests.of_asksOn fun _ => AsksOn.refl _
    · exact Requests.of_asksOn fun _ => AsksOn.refl _
  | arrive _ _ => exact Requests.of_asksOn fun _ => AsksOn.refl _
  | enqueue _ => exact Requests.of_asksOn fun _ => AsksOn.refl _
  | goto _ => exact Requests.of_asksOn fun _ => AsksOn.refl _
  | retain _ => exact Requests.of_asksOn fun _ => AsksOn.refl _
  | finish _ => exact Requests.of_asksOn fun _ => AsksOn.refl _
  | allDropped _ _ => exact Requests.of_asksOn fun _ => AsksOn.refl _
  | readEnd _ => exact Requests.of_asksOn fun _ => AsksOn.refl _
  | read _ _ => exact Requests.of_asksOn fun _ => AsksOn.refl _
  | readerConsumed _ _ => exact Requests.of_asksOn fun _ => AsksOn.refl _
  | readerWrite _ _ => exact Requests.of_asksOn fun _ => AsksOn.refl _
  | readerProduced _ _ => exact Requests.of_asksOn fun _ => AsksOn.refl _

end Requests

end Udpcast.SendData
