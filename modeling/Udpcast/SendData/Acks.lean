import Udpcast.SendData.Table

/-!
# Acknowledgements

A slice is acked when the number of participants whose OK has been counted for it reaches the
number of participants in the table.  The two numbers stand for two sets, which agree as long as no
OK of a removed participant is counted and no participant is dropped whose OK has been counted for
a slice in flight.
-/

namespace Udpcast.SendData

open Sender

/-- When a slice is acked, an OK for it has been dispatched since it was formed from every
participant in the table. -/
def AckSound (trace : List Event) : Prop :=
  ∀ l s used l', trace = l ++ .acked s used :: l' → ∀ cl, used.getLsbD cl = true →
    ∃ l₁ l₂, l = l₁ ++ .formed s :: l₂ ∧ Event.ok s cl ∈ l₂

/-- An OK is counted for a participant in the table only, and a timeout drops no participant whose
OK has been counted for a slice in flight. -/
def VotesValid (x : Sender) : Action → Prop
  | .dispatch =>
    match x.msgs with
    | .ok s cl :: _ => (findSlice x s).isSome → x.db.isParticipantValid cl = true
    | _ => True
  | .timeout =>
    match x.pending with
    | i :: _ => (x.slices i).rxmitId > x.config.retriesUntilDrop → ∀ cl ∈ toDrop x i,
        ∀ j, (x.slices j).state ≠ .free → (x.slices j).readySet.getLsbD cl = false
    | [] => True
  | _ => True

instance (x : Sender) : (a : Action) → Decidable (VotesValid x a)
  | .dispatch => by
    rw [VotesValid]
    split
    · exact inferInstanceAs (Decidable (_ → _))
    · exact inferInstanceAs (Decidable True)
  | .timeout => by
    rw [VotesValid]
    split
    · exact inferInstanceAs (Decidable (_ → ∀ _, _))
    · exact inferInstanceAs (Decidable True)
  | .arrive _ | .enqueue | .advance | .wake | .readerWait | .read _ | .readerConsumed
  | .readerWrite | .readerProduced => inferInstanceAs (Decidable True)

/-! ### The sets and the counters -/

/-- The counter of a slot is the size of its set. -/
def Slice.Counted (s : Slice) : Prop := s.nrReady = (Bitmap.bits s.readySet).card

theorem Slice.Counted.ready {s : Slice} (h : s.Counted) {cl : ℕ} (hcl : cl < maxClients) :
    (s.ready cl).Counted := by
  have hset : (s.ready cl).readySet = (if s.readySet.getLsbD cl then s.readySet
        else Bitmap.insert s.readySet cl) ∧
      (s.ready cl).nrReady = if s.readySet.getLsbD cl then s.nrReady else s.nrReady + 1 := by
    simp only [Slice.ready]
    split
    · split
      · exact ⟨rfl, rfl⟩
      · exact ⟨rfl, rfl⟩
    · split
      · exact ⟨rfl, rfl⟩
      · exact ⟨rfl, rfl⟩
  rw [Slice.Counted, hset.1, hset.2]
  split
  · exact h
  · rename_i hnew
    have hmem : cl ∉ Bitmap.bits s.readySet := fun hmem => hnew (Bitmap.mem_bits.mp hmem)
    rw [Bitmap.bits_insert hcl, Finset.card_insert_of_notMem hmem, h]

theorem readySet_ready {s : Slice} {cl : ℕ} (hcl : cl < maxClients) (j : ℕ) :
    (s.ready cl).readySet.getLsbD j = (s.readySet.getLsbD j || decide (j = cl)) := by
  have hset : (s.ready cl).readySet = if s.readySet.getLsbD cl then s.readySet
      else Bitmap.insert s.readySet cl := by
    simp only [Slice.ready]
    split
    · split
      · rfl
      · rfl
    · split
      · rfl
      · rfl
  rw [hset]
  split
  · rename_i hin
    by_cases hj : j = cl
    · rw [hj, hin]
      rfl
    · rw [decide_eq_false hj, Bool.or_false]
  · exact Bitmap.getLsbD_insert hcl j

theorem votes_forget (s : Slice) (cl : ℕ) :
    (s.forget cl).readySet = (if s.readySet.getLsbD cl then Bitmap.erase s.readySet cl
        else s.readySet) ∧
      (s.forget cl).nrReady = if s.readySet.getLsbD cl then s.nrReady - 1 else s.nrReady := by
  simp only [Slice.forget]
  split
  · split
    · exact ⟨rfl, rfl⟩
    · exact ⟨rfl, rfl⟩
  · split
    · exact ⟨rfl, rfl⟩
    · exact ⟨rfl, rfl⟩

theorem Slice.Counted.forget {s : Slice} (h : s.Counted) (cl : ℕ) : (s.forget cl).Counted := by
  rw [Slice.Counted, (votes_forget s cl).1, (votes_forget s cl).2]
  split
  · rename_i hin
    rw [Bitmap.bits_erase, Finset.card_erase_of_mem (Bitmap.mem_bits.mpr hin), h]
  · exact h

theorem readySet_forget (s : Slice) (cl j : ℕ) :
    (s.forget cl).readySet.getLsbD j = (s.readySet.getLsbD j && !decide (j = cl)) := by
  rw [(votes_forget s cl).1]
  split
  · exact Bitmap.getLsbD_erase j
  · rename_i hout
    by_cases hj : j = cl
    · subst hj
      simp only [Bool.not_eq_true] at hout
      simp [hout]
    · rw [decide_eq_false hj, Bool.not_false, Bool.and_true]

/-! ### The trace -/

/-- An OK from every participant in `set` has been dispatched since slice `s` was formed. -/
def Recorded (trace : List Event) (s : ℤ) (set : Bitmap) : Prop :=
  ∃ l₁ l₂, trace = l₁ ++ .formed s :: l₂ ∧ ∀ cl, set.getLsbD cl = true → Event.ok s cl ∈ l₂

theorem Recorded.append {trace : List Event} {s : ℤ} {set : Bitmap} (h : Recorded trace s set)
    (es : List Event) : Recorded (trace ++ es) s set := by
  obtain ⟨l₁, l₂, rfl, hok⟩ := h
  exact ⟨l₁, l₂ ++ es, by rw [List.append_assoc, List.cons_append],
    fun cl hcl => List.mem_append_left _ (hok cl hcl)⟩

theorem ackSound_concat {trace : List Event} (h : AckSound trace) {e : Event}
    (he : ∀ s used, e = .acked s used → Recorded trace s used) : AckSound (trace ++ [e]) := by
  intro l s used l' heq cl hcl
  rcases List.eq_nil_or_concat l' with rfl | ⟨l'', e', rfl⟩
  · obtain ⟨rfl, he'⟩ := List.append_inj' heq rfl
    obtain ⟨l₁, l₂, rfl, hok⟩ := he s used (List.singleton_injective he')
    exact ⟨l₁, l₂, rfl, hok cl hcl⟩
  · rw [List.concat_eq_append, ← List.cons_append, ← List.append_assoc] at heq
    obtain ⟨heq, -⟩ := List.append_inj' heq rfl
    exact h l s used l'' heq cl hcl

/-! ### The invariant -/

structure Votes (x : Sender) : Prop where
  nonAsync : x.config.hasFlag flagAsync = false
  counted : ∀ i, (x.slices i).Counted
  valid : ∀ i, (x.slices i).state ≠ .free → ∀ cl, (x.slices i).readySet.getLsbD cl = true →
    x.db.isParticipantValid cl = true
  recorded : ∀ i, (x.slices i).state ≠ .free →
    Recorded x.trace (x.slices i).sliceNo (x.slices i).readySet
  sound : AckSound x.trace

section Votes

variable {x x' : Sender}

/-- A slot in which nothing is counted, and which is not claimed. -/
structure SameVotes (s s' : Slice) : Prop where
  used : s'.state ≠ .free → s.state ≠ .free
  sliceNo : s'.sliceNo = s.sliceNo
  readySet : s'.readySet = s.readySet
  nrReady : s'.nrReady = s.nrReady

theorem SameVotes.refl (s : Slice) : SameVotes s s := ⟨id, rfl, rfl, rfl⟩

theorem sameVotes_modify {f : Slice → Slice} {i : Fin 8} (h : SameVotes (x.slices i) (f (x.slices i)))
    (j : Fin 8) : SameVotes (x.slices j) ((x.modify i f).slices j) := by
  by_cases hji : j = i
  · subst hji
    rw [modify_slices_self]
    exact h
  · rw [modify_slices_of_ne _ _ _ hji]
    exact SameVotes.refl _

theorem sameVotes_requested (x : Sender) (i j : Fin 8) (rxmitId : ℤ) :
    SameVotes (x.slices j) ((requested (bumped x i rxmitId) i).slices j) := by
  by_cases hji : j = i
  · subst hji
    rw [requested_slices_self, bumped_slices_self]
    exact ⟨id, rfl, rfl, rfl⟩
  · rw [requested_slices_of_ne _ hji, bumped_slices_of_ne _ _ hji]
    exact SameVotes.refl _

theorem sameVotes_missing (s : Slice) (cl : ℕ) (map : Bitmap) : SameVotes s (s.missing cl map) := by
  simp only [Slice.missing]
  split
  · exact ⟨id, rfl, rfl, rfl⟩
  · exact ⟨id, rfl, rfl, rfl⟩

theorem Votes.congr (h : Votes x) (hflags : x'.config.flags = x.config.flags)
    (hs : ∀ i, SameVotes (x.slices i) (x'.slices i)) (hdb : x'.db.used = x.db.used)
    (ht : x'.trace = x.trace) : Votes x' where
  nonAsync := (hasFlag_congr hflags flagAsync).trans h.nonAsync
  counted i := by
    rw [Slice.Counted, (hs i).readySet, (hs i).nrReady]
    exact h.counted i
  valid i hi cl hcl := by
    rw [(hs i).readySet] at hcl
    rw [ParticipantsDb.isParticipantValid, hdb]
    exact h.valid i ((hs i).used hi) cl hcl
  recorded i hi := by
    rw [ht, (hs i).sliceNo, (hs i).readySet]
    exact h.recorded i ((hs i).used hi)
  sound := by rw [ht]; exact h.sound

/-- The number of counted OKs reaches the number of participants when all have sent one. -/
theorem Votes.all_ready (h : Votes x) {i : Fin 8} (hi : (x.slices i).state ≠ .free)
    (hready : x.db.nrParticipants ≤ (x.slices i).nrReady) :
    Bitmap.bits (x.slices i).readySet = Bitmap.bits x.db.used := by
  have hsub : Bitmap.bits (x.slices i).readySet ⊆ Bitmap.bits x.db.used := fun cl hcl =>
    Bitmap.mem_bits.mpr (h.valid i hi cl (Bitmap.mem_bits.mp hcl))
  have hcount : (x.slices i).nrReady = (Bitmap.bits (x.slices i).readySet).card := h.counted i
  exact Finset.eq_of_subset_of_card_le hsub (by rw [← x.db.nr_eq, ← hcount]; exact hready)

theorem valid_foldl_remove (l : List ℕ) (db : ParticipantsDb) (cl : ℕ) :
    (l.foldl ParticipantsDb.removeParticipant db).isParticipantValid cl = true ↔
      db.isParticipantValid cl = true ∧ cl ∉ l := by
  induction l generalizing db with
  | nil => simp
  | cons i l ih =>
    rw [List.foldl_cons, ih, ParticipantsDb.isParticipantValid, ParticipantsDb.used_removeParticipant,
      Bitmap.getLsbD_erase, ParticipantsDb.isParticipantValid, List.mem_cons]
    simp only [Bool.and_eq_true, Bool.not_eq_true', decide_eq_false_iff_not, not_or, and_assoc]

theorem Votes.dropped (h : Votes x) {i : Fin 8} {rest : List (Fin 8)}
    (hpending : x.pending = i :: rest) (hguard : VotesValid x .timeout) :
    Votes { x with db := afterDrop x i } where
  nonAsync := h.nonAsync
  counted := h.counted
  valid j hj cl hcl := by
    have hvalid := h.valid j hj cl hcl
    show (afterDrop x i).isParticipantValid cl = true
    rw [afterDrop]
    split
    · rename_i hlate
      rw [VotesValid, hpending] at hguard
      refine (valid_foldl_remove _ _ _).mpr ⟨hvalid, fun hmem => ?_⟩
      have hunready := hguard hlate cl hmem j hj
      rw [show (x.slices j).readySet.getLsbD cl = true from hcl] at hunready
      cases hunready
    · exact hvalid
  recorded := h.recorded
  sound := h.sound

theorem Votes.ok (h : Votes x) {s : ℤ} {cl : ℕ} {i : Fin 8} (hfind : findSlice x s = some i)
    (hvalid : x.db.isParticipantValid cl = true) : Votes (handleMessage x (.ok s cl)) := by
  have hsame := (handleMessage_frame x (.ok s cl)).1
  obtain ⟨hi, hno⟩ := findSlice_some hfind
  have hcl : cl < maxClients := by
    by_contra hge
    rw [ParticipantsDb.isParticipantValid, BitVec.getLsbD_of_ge _ _ (by simpa [maxClients] using hge)]
      at hvalid
    cases hvalid
  have hself : (handleMessage x (.ok s cl)).slices i = (x.slices i).ready cl := by
    simp only [handleMessage, hfind, emit_slices, modify_slices_self]
  have hother : ∀ j, j ≠ i → (handleMessage x (.ok s cl)).slices j = x.slices j := fun j hj => by
    simp only [handleMessage, hfind, emit_slices]
    exact modify_slices_of_ne _ _ _ hj
  have hdb : (handleMessage x (.ok s cl)).db.used = x.db.used := by
    simp only [handleMessage, hfind]
    exact ParticipantsDb.used_markAnswered ..
  have htrace : (handleMessage x (.ok s cl)).trace = x.trace ++ [.ok s cl] := by
    simp only [handleMessage, hfind]
    rfl
  refine ⟨?_, fun j => ?_, fun j hj k hk => ?_, fun j hj => ?_, ?_⟩
  · simp only [handleMessage, hfind]
    exact h.nonAsync
  · by_cases hji : j = i
    · rw [hji, hself]
      exact (h.counted i).ready hcl
    · rw [hother j hji]
      exact h.counted j
  · rw [(hsame j).state] at hj
    rw [ParticipantsDb.isParticipantValid, hdb]
    by_cases hji : j = i
    · rw [hji, hself, readySet_ready hcl, Bool.or_eq_true, decide_eq_true_iff] at hk
      rcases hk with hk | rfl
      · exact h.valid i hi k hk
      · exact hvalid
    · rw [hother j hji] at hk
      exact h.valid j hj k hk
  · rw [(hsame j).state] at hj
    rw [htrace, (hsame j).sliceNo]
    by_cases hji : j = i
    · rw [hji, hself, hno]
      obtain ⟨l₁, l₂, htr, hok⟩ := h.recorded i hi
      rw [hno] at htr hok
      refine ⟨l₁, l₂ ++ [.ok s cl], by rw [htr, List.append_assoc, List.cons_append],
        fun k hk => ?_⟩
      rw [readySet_ready hcl, Bool.or_eq_true, decide_eq_true_iff] at hk
      rcases hk with hk | rfl
      · exact List.mem_append_left _ (hok k hk)
      · exact List.mem_append_right _ List.mem_cons_self
    · rw [hother j hji]
      exact (h.recorded j hj).append _
  · rw [htrace]
    exact ackSound_concat h.sound fun _ _ he => by cases he

theorem Votes.disconnect (h : Votes x) (cl : ℕ) : Votes (handleMessage x (.disconnect cl)) := by
  have hslot : ∀ i, (handleMessage x (.disconnect cl)).slices i = (x.slices i).forget cl :=
    fun i => rfl
  have hsame := (handleMessage_frame x (.disconnect cl)).1
  refine ⟨h.nonAsync, fun i => (h.counted i).forget cl, fun i hi k hk => ?_, fun i hi => ?_, h.sound⟩
  · rw [(hsame i).state] at hi
    rw [hslot, readySet_forget, Bool.and_eq_true] at hk
    show (x.db.removeParticipant cl).isParticipantValid k = true
    rw [ParticipantsDb.isParticipantValid, ParticipantsDb.used_removeParticipant,
      Bitmap.getLsbD_erase, Bool.and_eq_true]
    exact ⟨h.valid i hi k hk.1, hk.2⟩
  · rw [(hsame i).state] at hi
    rw [(hsame i).sliceNo, hslot]
    obtain ⟨l₁, l₂, htrace, hok⟩ := h.recorded i hi
    refine ⟨l₁, l₂, htrace, fun k hk => hok k ?_⟩
    rw [readySet_forget, Bool.and_eq_true] at hk
    exact hk.1

theorem Votes.message (h : Votes x) {m : IncomingMsg} (hguard : ∀ s cl, m = .ok s cl →
    (findSlice x s).isSome → x.db.isParticipantValid cl = true) : Votes (handleMessage x m) := by
  cases m with
  | ok s cl =>
    cases hfind : findSlice x s with
    | none =>
      have heq : handleMessage x (.ok s cl) = x.emit (.ok s cl) := by
        simp only [handleMessage, hfind]
        rfl
      rw [heq]
      exact ⟨h.nonAsync, h.counted, h.valid, fun i hi => (h.recorded i hi).append _,
        ackSound_concat h.sound fun _ _ he => by cases he⟩
    | some i => exact h.ok hfind (hguard s cl rfl (by rw [hfind]; rfl))
  | retransmit s cl map rxmit =>
    simp only [handleMessage]
    cases hfind : findSlice x s with
    | none => exact ⟨h.nonAsync, h.counted, h.valid, h.recorded, h.sound⟩
    | some i =>
      exact h.congr rfl (sameVotes_modify (x := { x with
        db := x.db.markAnswered cl (some s) (x.slices i).rxmitId }) (sameVotes_missing _ cl map))
        (ParticipantsDb.used_markAnswered ..) rfl
  | disconnect cl => exact h.disconnect cl

theorem Votes.acked (h : Votes x) {i : Fin 8} {c : NetConfig} {q : Produconsum}
    (hi : (x.slices i).state ≠ .free) (hready : x.db.nrParticipants ≤ (x.slices i).nrReady)
    (hflags : c.flags = x.config.flags) : Votes (released x i c q) := by
  have hall := h.all_ready hi hready
  have hself := released_slices_self x i c q
  have hother := fun j (hj : j ≠ i) => released_slices_of_ne x c q hj
  have hkeep : ∀ j, ((released x i c q).slices j).state ≠ .free →
      (released x i c q).slices j = x.slices j := by
    intro j hj
    exact hother j fun hji => hj (by rw [hji, hself])
  refine ⟨(hasFlag_congr hflags flagAsync).trans h.nonAsync, fun j => ?_, fun j hj => ?_,
    fun j hj => ?_, ?_⟩
  · by_cases hji : j = i
    · rw [hji, hself]
      exact h.counted i
    · rw [hother j hji]
      exact h.counted j
  · have heq := hkeep j hj
    rw [heq] at hj ⊢
    exact h.valid j hj
  · have heq := hkeep j hj
    rw [heq] at hj ⊢
    exact (h.recorded j hj).append _
  · refine ackSound_concat h.sound fun s used he => ?_
    obtain ⟨rfl, rfl⟩ := Event.acked.inj he
    obtain ⟨l₁, l₂, htrace, hok⟩ := h.recorded i hi
    refine ⟨l₁, l₂, htrace, fun cl hcl => hok cl ?_⟩
    rw [← Bitmap.mem_bits, hall, Bitmap.mem_bits]
    exact hcl

theorem Votes.form (h : Votes x) {pos : Fin 8} {bytes : ℕ} {data : Produconsum} :
    Votes (formed x pos bytes data) := by
  have hself := formed_slices_self x pos bytes data
  have hother := fun j (hj : j ≠ pos) => formed_slices_of_ne x bytes data hj
  have hempty : ((formed x pos bytes data).slices pos).readySet = 0 := by rw [hself]; rfl
  have hnone : ∀ cl, ((formed x pos bytes data).slices pos).readySet.getLsbD cl ≠ true := by
    intro cl hcl
    rw [hempty] at hcl
    simp at hcl
  refine ⟨h.nonAsync, fun j => ?_, fun j hj cl hcl => ?_, fun j hj => ?_, ?_⟩
  · by_cases hjp : j = pos
    · rw [hjp, Slice.Counted, hempty, Bitmap.bits_zero, hself]
      rfl
    · rw [hother j hjp]
      exact h.counted j
  · by_cases hjp : j = pos
    · rw [hjp] at hcl
      exact absurd hcl (hnone cl)
    · rw [hother j hjp] at hj hcl
      exact h.valid j hj cl hcl
  · by_cases hjp : j = pos
    · rw [hjp]
      refine ⟨x.trace, [], ?_, fun cl hcl => absurd hcl (hnone cl)⟩
      rw [hself]
      rfl
    · rw [hother j hjp] at hj ⊢
      exact (h.recorded j hj).append _
  · exact ackSound_concat h.sound fun _ _ he => by cases he

theorem Votes.move (h : Votes x) (p : Phase) : Votes { x with phase := p } :=
  h.congr rfl (fun _ => SameVotes.refl _) rfl rfl

theorem Votes.step {a : Action} (h : Votes x) (hc : Control x) (hguard : VotesValid x a)
    (hs : StepTo x a x') : Votes x' := by
  cases hs with
  | arrive _ _ => exact h.congr rfl (fun _ => SameVotes.refl _) rfl rfl
  | enqueue _ => exact h.congr rfl (fun _ => SameVotes.refl _) rfl rfl
  | @dispatch m rest _ hmsgs =>
    have h₁ : Votes { x with msgs := rest } := h.congr rfl (fun _ => SameVotes.refl _) rfl rfl
    refine h₁.message fun s cl hm hfind => ?_
    rw [VotesValid, hmsgs, hm] at hguard
    exact hguard hfind
  | goto _ => exact h.move _
  | retain _ => exact h.congr rfl (fun _ => SameVotes.refl _) rfl rfl
  | @acked i rest nr fr c q hphase hready hconfig _ =>
    have hstate := hc.current (Or.inl ⟨nr, fr, hphase⟩)
    have hnr : nr = x.db.nrParticipants := by
      have hat := hc.pendingAt
      rw [hphase] at hat
      exact hat.2
    exact (h.acked (by simp [hstate]) (hnr ▸ hready) (growSliceSize_flags hconfig)).move _
  | @rexmit i rest fl map good ds _ _ =>
    exact h.congr rfl (sameVotes_modify (x := x) (f := fun s => s.rexmitted map good) (i := i)
      ⟨id, rfl, rfl, rfl⟩) rfl rfl
  | @reqack i rest nr fr rxmitId _ _ =>
    exact h.congr (reduceSliceSize_flags _ _) (fun j => sameVotes_requested x i j rxmitId) rfl rfl
  | asyncRound hasync => exact absurd hasync hc.not_asyncRound
  | form _ _ _ _ _ _ _ => exact h.form
  | finish _ => exact h.congr rfl (fun _ => SameVotes.refl _) rfl rfl
  | @encode i fecData _ _ =>
    exact h.congr rfl (sameVotes_modify (x := x) (f := fun s => { s with fecData := fecData })
      (i := i) ⟨id, rfl, rfl, rfl⟩) rfl rfl
  | @transmit i ds hphase _ _ =>
    have hne : (x.slices i).state ≠ .free := by
      rw [hc.fresh i (Or.inr hphase)]
      simp
    refine h.congr (reduceSliceSize_flags _ _) (fun j => ?_) rfl rfl
    by_cases hji : j = i
    · subst hji
      show SameVotes _ ((requested (transmitted x j ds) j).slices j)
      rw [requested_slices_self, transmitted_slices_self]
      exact ⟨fun _ => hne, rfl, rfl, rfl⟩
    · show SameVotes _ ((requested (transmitted x i ds) i).slices j)
      rw [requested_slices_of_ne _ hji, transmitted_slices_of_ne _ _ hji]
      exact SameVotes.refl _
  | transmitAsync _ _ _ _ hasync =>
    rw [h.nonAsync] at hasync
    cases hasync
  | @timeout i rest rxmitId _ hpending =>
    exact (h.dropped hpending hguard).congr (reduceSliceSize_flags _ _)
      (fun j => sameVotes_requested { x with db := afterDrop x i } i j rxmitId) rfl rfl
  | allDropped _ hpending =>
    exact (h.dropped hpending hguard).congr rfl (fun _ => SameVotes.refl _) rfl rfl
  | readerWait _ hw =>
    rcases readerWait_frame hw with rfl | ⟨_, _, rfl⟩
    · exact h.congr rfl (fun _ => SameVotes.refl _) rfl rfl
    · exact h.congr rfl (fun _ => SameVotes.refl _) rfl rfl
  | readEnd _ => exact h.congr rfl (fun _ => SameVotes.refl _) rfl rfl
  | read _ _ => exact h.congr rfl (fun _ => SameVotes.refl _) rfl rfl
  | readerConsumed _ _ => exact h.congr rfl (fun _ => SameVotes.refl _) rfl rfl
  | readerWrite _ _ => exact h.congr rfl (fun _ => SameVotes.refl _) rfl rfl
  | readerProduced _ _ => exact h.congr rfl (fun _ => SameVotes.refl _) rfl rfl

end Votes

theorem votes_start {config : NetConfig} {db : ParticipantsDb} {x : Sender}
    (h : Sender.start config db = some x) (hasync : config.hasFlag flagAsync = false) : Votes x := by
  have hflags := start_flags h
  simp only [Sender.start, Option.bind_eq_bind, Option.bind_eq_some_iff] at h
  obtain ⟨fifo, -, nrFec, -, c₁, -, c₂, -, h⟩ := h
  obtain rfl := Option.some.inj h
  exact
    { nonAsync := (hasFlag_congr hflags flagAsync).trans hasync
      counted := fun i => by
        show 0 = (Bitmap.bits 0).card
        rw [Bitmap.bits_zero, Finset.card_empty]
      valid := fun i hi => absurd rfl hi
      recorded := fun i hi => absurd rfl hi
      sound := fun l s used l' hl => by
        have := congrArg List.length hl
        simp at this }

/-- In every run of the sender outside asynchronous mode in which no OK of a removed participant is
counted, and no participant is dropped whose OK has been counted for a slice in flight, a slice is
acked only after an OK for it from every participant in the table. -/
theorem ack_slice_sound (config : NetConfig) (db : ParticipantsDb) (x₀ x : Sender)
    (hstart : Sender.start config db = some x₀) (hasync : config.hasFlag flagAsync = false)
    (hrun : Run.Reach step VotesValid x₀ x) : AckSound x.trace := by
  obtain ⟨hvotes, -⟩ := hrun.invariant (I := fun x => Votes x ∧ Control x)
    ⟨votes_start hstart hasync, control_start hstart⟩ fun s a s' ⟨hv, hc⟩ hguard hs =>
      ⟨hv.step hc hguard (step_cases hs), hc.step (step_cases hs)⟩
  exact hvotes.sound

/-! ### Two participants -/

/-- A half-duplex transfer in blocks of four bytes. -/
def halfDuplex : NetConfig where
  blockSize := 4
  sliceSize := 130
  flags := 0
  defaultSliceSize := 0
  maxSliceSize := 1024
  retriesUntilDrop := 200
  discovery := .doubling
  fecStripes := 0
  fecRedundancy := 0
  fecStripesize := 0
  blockSize_pos := by decide

/-- The participants 0 and 1. -/
def twoParticipants : ParticipantsDb where
  nrParticipants := 2
  used := Bitmap.insert (Bitmap.insert 0 0) 1
  firstAnsweredRound := fun _ => none
  nr_eq := by
    rw [Bitmap.bits_insert (by decide), Bitmap.bits_insert (by decide), Bitmap.bits_zero]
    rfl

/-- Participant 0 alone. -/
def firstParticipant : ParticipantsDb where
  nrParticipants := 1
  used := Bitmap.insert 0 0
  firstAnsweredRound := fun _ => none
  nr_eq := by
    rw [Bitmap.bits_insert (by decide), Bitmap.bits_zero]
    rfl

/-- The reader reads `buf`. -/
def readBytes (buf : List UInt8) : List Action :=
  [.readerWait, .read buf, .readerConsumed, .readerWrite, .readerProduced]

/-- The thread of the return channel puts a message into the queue. -/
def message (m : IncomingMsg) : List Action := [.arrive m, .enqueue]

/-- An input of one byte is read and sent. -/
def sendOne : List Action :=
  readBytes [7] ++ [.readerWait, .read []] ++ List.replicate 6 .advance

/-- Both participants send an OK. -/
theorem ack_slice_sound_bothOk : ∃ x : Sender, AckSound x.trace ∧
    x.trace = [.formed 0, .ok 0 0, .ok 0 1, .acked 0 (Bitmap.insert (Bitmap.insert 0 0) 1)] := by
  have hexec : ((Sender.start halfDuplex twoParticipants).bind fun x => Run.exec step VotesValid x
      (sendOne ++ message (.ok 0 0) ++ message (.ok 0 1) ++
        [.dispatch, .dispatch, .advance, .advance])).map
      (fun x => decide (x.trace = [.formed 0, .ok 0 0, .ok 0 1,
        .acked 0 (Bitmap.insert (Bitmap.insert 0 0) 1)])) = some true := by decide +kernel
  obtain ⟨x, hx, hp⟩ := Option.map_eq_some_iff.mp hexec
  obtain ⟨x₀, hstart, hx⟩ := Option.bind_eq_some_iff.mp hx
  exact ⟨x, ack_slice_sound halfDuplex twoParticipants x₀ x hstart (by decide) (Run.reach_of_exec hx),
    of_decide_eq_true hp⟩

/-- Participant 0 disconnects, and its OK comes after the DISCONNECT: it is counted in place of the
OK from participant 1, which has sent none. -/
theorem ack_slice_unsound : ∃ x₀ x, Sender.start halfDuplex twoParticipants = some x₀ ∧
    halfDuplex.hasFlag flagAsync = false ∧ Run.Reach step (fun _ _ => True) x₀ x ∧
    ¬ AckSound x.trace := by
  have hexec : ((Sender.start halfDuplex twoParticipants).bind fun x =>
      Run.exec step (fun _ _ => True) x
      (sendOne ++ message (.disconnect 0) ++ message (.ok 0 0) ++
        [.dispatch, .dispatch, .advance, .advance])).map
      (fun x => decide (x.trace = [.formed 0, .ok 0 0, .acked 0
        (Bitmap.erase (Bitmap.insert (Bitmap.insert 0 0) 1) 0)])) = some true := by decide +kernel
  obtain ⟨x, hx, hp⟩ := Option.map_eq_some_iff.mp hexec
  obtain ⟨x₀, hstart, hx⟩ := Option.bind_eq_some_iff.mp hx
  refine ⟨x₀, x, hstart, by decide, Run.reach_of_exec hx, fun hsound => ?_⟩
  obtain ⟨l₁, l₂, hl, hok⟩ := hsound [.formed 0, .ok 0 0] 0 _ [] (of_decide_eq_true hp) 1
    (by decide +kernel)
  have hmem : Event.ok 0 1 ∈ [Event.formed 0, Event.ok 0 0] := by
    rw [hl]
    exact List.mem_append_right _ (List.mem_cons_of_mem _ hok)
  simp at hmem

end Udpcast.SendData
