import Udpcast.Lib.Fold
import Udpcast.SendData.Acks

/-!
# The sets of the answers

A slice keeps two sets of participants, each with a counter, and the union of the blocks that are
asked for.  The counters are the sizes of the sets, and what OKs and RETRANSMITs leave does not
depend on their order or number.
-/

namespace Udpcast.SendData

open Sender

/-! ### A set and its counter -/

/-- A participant joins a set that is counted. -/
def join (set : Bitmap) (n cl : ℕ) : Bitmap × ℕ :=
  if set.getLsbD cl then (set, n) else (Bitmap.insert set cl, n + 1)

section Join

variable {set : Bitmap} {n a b : ℕ}

theorem getLsbD_join (ha : a < maxClients) (k : ℕ) :
    (join set n a).1.getLsbD k = (set.getLsbD k || decide (k = a)) := by
  rw [join]
  split
  · rename_i hin
    by_cases hk : k = a
    · rw [hk, hin]
      rfl
    · rw [decide_eq_false hk, Bool.or_false]
  · exact Bitmap.getLsbD_insert ha k

theorem join_idem (ha : a < maxClients) :
    join (join set n a).1 (join set n a).2 a = join set n a := by
  have hin : (join set n a).1.getLsbD a = true := by
    rw [getLsbD_join ha, decide_eq_true rfl, Bool.or_true]
  rw [join, if_pos hin]

theorem join_comm (ha : a < maxClients) (hb : b < maxClients) :
    join (join set n a).1 (join set n a).2 b = join (join set n b).1 (join set n b).2 a := by
  by_cases hab : a = b
  · rw [hab]
  have hset_b : (join set n a).1.getLsbD b = set.getLsbD b := by
    rw [getLsbD_join ha, decide_eq_false (Ne.symm hab), Bool.or_false]
  have hset_a : (join set n b).1.getLsbD a = set.getLsbD a := by
    rw [getLsbD_join hb, decide_eq_false hab, Bool.or_false]
  have hinsert := Bitmap.insert_comm set a b
  rw [join, hset_b, join.eq_def (join set n b).1, hset_a]
  simp only [join]
  by_cases hin : set.getLsbD a = true
  · simp only [if_pos hin]
  · by_cases hin' : set.getLsbD b = true
    · simp only [if_neg hin, if_pos hin']
    · simp only [if_neg hin, if_neg hin', hinsert]

theorem card_join (ha : a < maxClients) (h : n = (Bitmap.bits set).card) :
    (join set n a).2 = (Bitmap.bits (join set n a).1).card := by
  rw [join]
  split
  · exact h
  · rename_i hnew
    have hmem : a ∉ Bitmap.bits set := fun hmem => hnew (Bitmap.mem_bits.mp hmem)
    rw [Bitmap.bits_insert ha, Finset.card_insert_of_notMem hmem, h]

end Join

theorem ready_eq (s : Slice) (cl : ℕ) : s.ready cl = { s with
    readySet := (join s.readySet s.nrReady cl).1
    nrReady := (join s.readySet s.nrReady cl).2
    answeredSet := (join s.answeredSet s.nrAnswered cl).1
    nrAnswered := (join s.answeredSet s.nrAnswered cl).2 } := by
  simp only [Slice.ready, join]
  by_cases hr : s.readySet.getLsbD cl = true
  · by_cases ha : s.answeredSet.getLsbD cl = true
    · simp only [if_pos hr, if_pos ha]
    · simp only [if_pos hr, if_neg ha]
  · by_cases ha : s.answeredSet.getLsbD cl = true
    · simp only [if_neg hr, if_pos ha]
    · simp only [if_neg hr, if_neg ha]

theorem missing_eq (s : Slice) (cl : ℕ) (map : Bitmap) : s.missing cl map = { s with
    rxmitMap := s.rxmitMap ||| ~~~map
    needRxmit := true
    answeredSet := (join s.answeredSet s.nrAnswered cl).1
    nrAnswered := (join s.answeredSet s.nrAnswered cl).2 } := by
  simp only [Slice.missing, join]
  by_cases ha : s.answeredSet.getLsbD cl = true
  · simp only [if_pos ha]
  · simp only [if_neg ha]

/-! ### Order and multiplicity -/

/-- An OK or a RETRANSMIT from an entry of the table. -/
def IncomingMsg.IsAnswer : IncomingMsg → Prop
  | .ok _ cl => cl < maxClients
  | .retransmit _ cl _ _ => cl < maxClients
  | .disconnect _ => False

/-- What a message does with the slice in slot `i`, where `find` finds the slots. -/
def Slice.answer (find : ℤ → Option (Fin 8)) (i : Fin 8) (s : Slice) : IncomingMsg → Slice
  | .ok no cl => if find no = some i then s.ready cl else s
  | .retransmit no cl map _ => if find no = some i then s.missing cl map else s
  | .disconnect cl => s.forget cl

section Answer

variable {find : ℤ → Option (Fin 8)} {i : Fin 8} {m m' : IncomingMsg}

theorem answer_idem (hm : m.IsAnswer) (s : Slice) :
    Slice.answer find i (Slice.answer find i s m) m = Slice.answer find i s m := by
  cases m with
  | ok no cl =>
    have hcl : cl < maxClients := hm
    simp only [Slice.answer]
    by_cases h : find no = some i
    · simp only [if_pos h, ready_eq, join_idem hcl]
    · simp only [if_neg h]
  | retransmit no cl map _ =>
    have hcl : cl < maxClients := hm
    simp only [Slice.answer]
    by_cases h : find no = some i
    · simp only [if_pos h, missing_eq, join_idem hcl, BitVec.or_assoc, BitVec.or_self]
    · simp only [if_neg h]
  | disconnect _ => exact hm.elim

theorem ready_comm (s : Slice) {a b : ℕ} (ha : a < maxClients) (hb : b < maxClients) :
    (s.ready a).ready b = (s.ready b).ready a := by
  simp only [ready_eq, join_comm ha hb]

theorem ready_missing (s : Slice) {a b : ℕ} (ha : a < maxClients) (hb : b < maxClients)
    (map : Bitmap) : (s.ready a).missing b map = (s.missing b map).ready a := by
  simp only [ready_eq, missing_eq, join_comm ha hb]

theorem missing_comm (s : Slice) {a b : ℕ} (ha : a < maxClients) (hb : b < maxClients)
    (map map' : Bitmap) : (s.missing a map).missing b map' = (s.missing b map').missing a map := by
  have hmap : s.rxmitMap ||| ~~~map ||| ~~~map' = s.rxmitMap ||| ~~~map' ||| ~~~map := by
    rw [BitVec.or_assoc, BitVec.or_comm (~~~map), BitVec.or_assoc]
  simp only [missing_eq, join_comm ha hb, hmap]

theorem answer_comm (hm : m.IsAnswer) (hm' : m'.IsAnswer) (s : Slice) :
    Slice.answer find i (Slice.answer find i s m) m'
      = Slice.answer find i (Slice.answer find i s m') m := by
  cases m with
  | ok no cl =>
    cases m' with
    | ok no' cl' =>
      simp only [Slice.answer]
      split
      · split
        · exact ready_comm s hm hm'
        · rfl
      · rfl
    | retransmit no' cl' map _ =>
      simp only [Slice.answer]
      split
      · split
        · exact ready_missing s hm hm' map
        · rfl
      · rfl
    | disconnect _ => exact hm'.elim
  | retransmit no cl map _ =>
    cases m' with
    | ok no' cl' =>
      simp only [Slice.answer]
      split
      · split
        · exact (ready_missing s hm' hm map).symm
        · rfl
      · rfl
    | retransmit no' cl' map' _ =>
      simp only [Slice.answer]
      split
      · split
        · exact missing_comm s hm hm' map map'
        · rfl
      · rfl
    | disconnect _ => exact hm'.elim
  | disconnect _ => exact hm.elim

end Answer

/-! ### The slice table -/

section Table

variable {x : Sender} {m : IncomingMsg}

theorem slices_modify (x : Sender) (f : Slice → Slice) (i j : Fin 8) :
    (x.modify j f).slices i = if some j = some i then f (x.slices i) else x.slices i := by
  by_cases hij : i = j
  · subst hij
    rw [modify_slices_self, if_pos rfl]
  · rw [modify_slices_of_ne x j f hij, if_neg (fun h => hij (Option.some.inj h).symm)]

theorem slices_handleMessage (x : Sender) (m : IncomingMsg) (i : Fin 8) :
    (handleMessage x m).slices i = Slice.answer (findSlice x) i (x.slices i) m := by
  cases m with
  | ok no cl =>
    simp only [handleMessage, Slice.answer]
    cases findSlice x no with
    | none => rfl
    | some j => exact slices_modify _ (·.ready cl) i j
  | retransmit no cl map rxmit =>
    simp only [handleMessage, Slice.answer]
    cases findSlice x no with
    | none => rfl
    | some j => exact slices_modify _ (·.missing cl map) i j
  | disconnect cl => rfl

theorem findSlice_handleMessage (x : Sender) (m : IncomingMsg) :
    findSlice (handleMessage x m) = findSlice x := by
  have hsame := (handleMessage_frame x m).1
  funext no
  rw [findSlice, findSlice]
  congr 1
  funext j
  rw [(hsame j).state, (hsame j).sliceNo]

theorem slices_foldl (l : List IncomingMsg) (x : Sender) (i : Fin 8) :
    (l.foldl handleMessage x).slices i = l.foldl (Slice.answer (findSlice x) i) (x.slices i) := by
  induction l generalizing x with
  | nil => rfl
  | cons m l ih =>
    rw [List.foldl_cons, List.foldl_cons, ih, findSlice_handleMessage, slices_handleMessage]

/-- Two lists of OKs and RETRANSMITs with the same messages leave the same slices, in every state:
neither order nor repetition matters. -/
theorem handleMessage_order (x : Sender) (l l' : List IncomingMsg)
    (hanswers : ∀ m ∈ l, m.IsAnswer) (hmem : ∀ m, m ∈ l ↔ m ∈ l') :
    (l.foldl handleMessage x).slices = (l'.foldl handleMessage x).slices := by
  funext i
  rw [slices_foldl, slices_foldl]
  exact Fold.foldl_congr_mem hmem (fun m hm m' hm' => answer_comm (hanswers m hm) (hanswers m' hm'))
    (fun m hm => answer_idem (hanswers m hm)) (x.slices i)

/-- A repeated OK and a RETRANSMIT for a slice in flight, in two orders. -/
theorem handleMessage_order_twice : ∃ x : Sender, (x.slices 0).state = .xmitted ∧
    ([.ok 0 1, .retransmit 0 0 0 2, .ok 0 1].foldl handleMessage x).slices
      = ([.retransmit 0 0 0 2, .ok 0 1].foldl handleMessage x).slices ∧
    (([.retransmit 0 0 0 2, .ok 0 1].foldl handleMessage x).slices 0).nrReady = 1 ∧
    (([.retransmit 0 0 0 2, .ok 0 1].foldl handleMessage x).slices 0).nrAnswered = 2 := by
  have hexec : ((Sender.start halfDuplex twoParticipants).bind fun x =>
      Run.exec step (fun _ _ => True) x sendOne).map
      (fun x => decide ((x.slices 0).state = .xmitted ∧
        (([.retransmit 0 0 0 2, .ok 0 1].foldl handleMessage x).slices 0).nrReady = 1 ∧
        (([.retransmit 0 0 0 2, .ok 0 1].foldl handleMessage x).slices 0).nrAnswered = 2))
      = some true := by decide +kernel
  obtain ⟨x, -, hp⟩ := Option.map_eq_some_iff.mp hexec
  obtain ⟨hstate, hready, hanswered⟩ := of_decide_eq_true hp
  refine ⟨x, hstate, handleMessage_order x _ _ ?_ ?_, hready, hanswered⟩
  · simp [IncomingMsg.IsAnswer, maxClients]
  · simp

end Table

/-! ### The sets and their counters -/

/-- The counters are the sizes of the sets, and a participant that is ready has answered. -/
structure Slice.Consistent (s : Slice) : Prop where
  ready : s.nrReady = (Bitmap.bits s.readySet).card
  answered : s.nrAnswered = (Bitmap.bits s.answeredSet).card
  subset : ∀ cl, s.readySet.getLsbD cl = true → s.answeredSet.getLsbD cl = true

/-- A slot with the sets of another one. -/
structure SameSets (s s' : Slice) : Prop where
  readySet : s'.readySet = s.readySet
  nrReady : s'.nrReady = s.nrReady
  answeredSet : s'.answeredSet = s.answeredSet
  nrAnswered : s'.nrAnswered = s.nrAnswered

theorem SameSets.refl (s : Slice) : SameSets s s := ⟨rfl, rfl, rfl, rfl⟩

namespace Slice.Consistent

variable {s s' : Slice} (h : s.Consistent)

include h

theorem congr (hs : SameSets s s') : s'.Consistent where
  ready := by rw [hs.nrReady, hs.readySet]; exact h.ready
  answered := by rw [hs.nrAnswered, hs.answeredSet]; exact h.answered
  subset := by rw [hs.readySet, hs.answeredSet]; exact h.subset

theorem afterOk {cl : ℕ} (hcl : cl < maxClients) : (s.ready cl).Consistent := by
  rw [ready_eq]
  refine ⟨card_join hcl h.ready, card_join hcl h.answered, fun k hk => ?_⟩
  rw [getLsbD_join hcl, Bool.or_eq_true] at hk ⊢
  exact hk.imp_left (h.subset k)

theorem afterRetransmit {cl : ℕ} (hcl : cl < maxClients) (map : Bitmap) :
    (s.missing cl map).Consistent := by
  rw [missing_eq]
  refine ⟨h.ready, card_join hcl h.answered, fun k hk => ?_⟩
  rw [getLsbD_join hcl, Bool.or_eq_true]
  exact Or.inl (h.subset k hk)

theorem afterReqack : s.nextRound.Consistent := ⟨h.ready, h.ready, fun _ hk => hk⟩

theorem nrReady_pos {cl : ℕ} (hcl : s.readySet.getLsbD cl = true) : 0 < s.nrReady := by
  rw [h.ready]
  exact Finset.card_pos.mpr ⟨cl, Bitmap.mem_bits.mpr hcl⟩

theorem nrAnswered_pos {cl : ℕ} (hcl : s.answeredSet.getLsbD cl = true) : 0 < s.nrAnswered := by
  rw [h.answered]
  exact Finset.card_pos.mpr ⟨cl, Bitmap.mem_bits.mpr hcl⟩

end Slice.Consistent

/-- A participant leaves a set that is counted. -/
def leave (set : Bitmap) (n cl : ℕ) : Bitmap × ℕ :=
  if set.getLsbD cl then (Bitmap.erase set cl, n - 1) else (set, n)

theorem getLsbD_leave (set : Bitmap) (n cl k : ℕ) :
    (leave set n cl).1.getLsbD k = (set.getLsbD k && !decide (k = cl)) := by
  rw [leave]
  split
  · exact Bitmap.getLsbD_erase k
  · rename_i hout
    by_cases hk : k = cl
    · rw [hk, Bool.eq_false_iff.mpr hout]
      rfl
    · rw [decide_eq_false hk, Bool.not_false, Bool.and_true]

theorem card_leave {set : Bitmap} {n : ℕ} (cl : ℕ) (h : n = (Bitmap.bits set).card) :
    (leave set n cl).2 = (Bitmap.bits (leave set n cl).1).card := by
  rw [leave]
  split
  · rename_i hin
    rw [Bitmap.bits_erase, Finset.card_erase_of_mem (Bitmap.mem_bits.mpr hin), h]
  · exact h

theorem forget_eq (s : Slice) (cl : ℕ) : s.forget cl = { s with
    readySet := (leave s.readySet s.nrReady cl).1
    nrReady := (leave s.readySet s.nrReady cl).2
    answeredSet := (leave s.answeredSet s.nrAnswered cl).1
    nrAnswered := (leave s.answeredSet s.nrAnswered cl).2 } := by
  simp only [Slice.forget, leave]
  by_cases hr : s.readySet.getLsbD cl = true
  · by_cases ha : s.answeredSet.getLsbD cl = true
    · simp only [if_pos hr, if_pos ha]
    · simp only [if_pos hr, if_neg ha]
  · by_cases ha : s.answeredSet.getLsbD cl = true
    · simp only [if_neg hr, if_pos ha]
    · simp only [if_neg hr, if_neg ha]

theorem Slice.Consistent.afterDisconnect {s : Slice} (h : s.Consistent) (cl : ℕ) :
    (s.forget cl).Consistent := by
  rw [forget_eq]
  refine ⟨card_leave cl h.ready, card_leave cl h.answered, fun k hk => ?_⟩
  rw [getLsbD_leave, Bool.and_eq_true] at hk ⊢
  exact hk.imp_left (h.subset k)

theorem consistent_of_empty {s : Slice} (hr : s.readySet = 0) (hnr : s.nrReady = 0)
    (ha : s.answeredSet = 0) (hna : s.nrAnswered = 0) : s.Consistent where
  ready := by rw [hnr, hr, Bitmap.bits_zero, Finset.card_empty]
  answered := by rw [hna, ha, Bitmap.bits_zero, Finset.card_empty]
  subset cl hcl := by
    rw [hr, Bitmap.getLsbD_zero] at hcl
    cases hcl

/-! ### All runs -/

/-- The slots are consistent, and the messages on their way come from entries of the table. -/
structure Bookkept (x : Sender) : Prop where
  slots : ∀ i, (x.slices i).Consistent
  held : ∀ m, x.held = some m → m.clNo < maxClients
  msgs : ∀ m ∈ x.msgs, m.clNo < maxClients

section Bookkept

variable {x x' : Sender}

theorem consistent_modify (h : ∀ j, (x.slices j).Consistent) {f : Slice → Slice} {i : Fin 8}
    (hi : (f (x.slices i)).Consistent) (j : Fin 8) : ((x.modify i f).slices j).Consistent := by
  by_cases hji : j = i
  · rw [hji, modify_slices_self]
    exact hi
  · rw [modify_slices_of_ne _ _ _ hji]
    exact h j

theorem consistent_requested (h : ∀ j, (x.slices j).Consistent) (i j : Fin 8) :
    ((requested x i).slices j).Consistent := by
  by_cases hji : j = i
  · rw [hji, requested_slices_self]
    exact (h i).afterReqack
  · rw [requested_slices_of_ne _ hji]
    exact h j

theorem consistent_bumped (h : ∀ j, (x.slices j).Consistent) (i : Fin 8) (rxmitId : ℤ) (j : Fin 8) :
    ((bumped x i rxmitId).slices j).Consistent :=
  consistent_modify (f := fun s => { s with rxmitId := rxmitId }) h
    ((h i).congr ⟨rfl, rfl, rfl, rfl⟩) j

theorem consistent_released (h : ∀ j, (x.slices j).Consistent) (i : Fin 8) (c : NetConfig)
    (q : Produconsum) (j : Fin 8) : ((released x i c q).slices j).Consistent := by
  by_cases hji : j = i
  · rw [hji, released_slices_self]
    exact (h i).congr ⟨rfl, rfl, rfl, rfl⟩
  · rw [released_slices_of_ne _ _ _ hji]
    exact h j

theorem consistent_formed (h : ∀ j, (x.slices j).Consistent) (pos : Fin 8) (bytes : ℕ)
    (data : Produconsum) (j : Fin 8) : ((formed x pos bytes data).slices j).Consistent := by
  by_cases hjp : j = pos
  · rw [hjp, formed_slices_self]
    exact consistent_of_empty rfl rfl rfl rfl
  · rw [formed_slices_of_ne _ _ _ hjp]
    exact h j

theorem consistent_transmitted (h : ∀ j, (x.slices j).Consistent) (i : Fin 8) (ds : List Datagram)
    (j : Fin 8) : ((transmitted x i ds).slices j).Consistent := by
  by_cases hji : j = i
  · rw [hji, transmitted_slices_self]
    exact (h i).congr ⟨rfl, rfl, rfl, rfl⟩
  · rw [transmitted_slices_of_ne _ _ hji]
    exact h j

theorem consistent_handleMessage (h : ∀ j, (x.slices j).Consistent) {m : IncomingMsg}
    (hm : m.clNo < maxClients) (i : Fin 8) : ((handleMessage x m).slices i).Consistent := by
  rw [slices_handleMessage]
  cases m with
  | ok no cl =>
    rw [Slice.answer]
    split
    · exact (h i).afterOk hm
    · exact h i
  | retransmit no cl map rxmit =>
    rw [Slice.answer]
    split
    · exact (h i).afterRetransmit hm map
    · exact h i
  | disconnect cl => exact (h i).afterDisconnect cl

theorem lt_maxClients_of_isParticipantValid {db : ParticipantsDb} {cl : ℕ}
    (h : db.isParticipantValid cl = true) : cl < maxClients := by
  by_contra hge
  rw [ParticipantsDb.isParticipantValid, BitVec.getLsbD_of_ge _ _ (by simpa [maxClients] using hge)]
    at h
  cases h

theorem Bookkept.beside (h : Bookkept x) (hs : ∀ j, (x'.slices j).Consistent)
    (hheld : x'.held = x.held) (hmsgs : x'.msgs = x.msgs) : Bookkept x' :=
  ⟨hs, by rw [hheld]; exact h.held, by rw [hmsgs]; exact h.msgs⟩

theorem Bookkept.step {a : Action} (h : Bookkept x) (hc : Control x) (hs : StepTo x a x') :
    Bookkept x' := by
  cases hs with
  | @arrive m _ hvalid =>
    refine ⟨h.slots, fun m' hm' => ?_, h.msgs⟩
    obtain rfl := Option.some.inj hm'
    exact lt_maxClients_of_isParticipantValid hvalid
  | @enqueue m hheld =>
    refine ⟨h.slots, fun m' hm' => absurd hm' (Option.some_ne_none m').symm, fun m' hm' => ?_⟩
    rcases List.mem_append.mp hm' with hm' | hm'
    · exact h.msgs m' hm'
    · obtain rfl := List.mem_singleton.mp hm'
      exact h.held m' hheld
  | @dispatch m rest _ hmsgs =>
    have hm : m.clNo < maxClients := h.msgs m (by rw [hmsgs]; exact List.mem_cons_self)
    obtain ⟨-, slices, db, trace, hx'⟩ := handleMessage_frame { x with msgs := rest } m
    have hslots := consistent_handleMessage (x := { x with msgs := rest }) h.slots hm
    rw [hx'] at hslots ⊢
    refine ⟨hslots, h.held, fun m' hm' => h.msgs m' ?_⟩
    rw [hmsgs]
    exact List.mem_cons_of_mem _ hm'
  | goto _ => exact h.beside h.slots rfl rfl
  | retain _ => exact h.beside h.slots rfl rfl
  | @acked i _ _ _ c q _ _ _ _ => exact h.beside (consistent_released h.slots i c q) rfl rfl
  | @rexmit i _ _ map good _ _ _ =>
    exact h.beside (consistent_modify (f := fun s => s.rexmitted map good) h.slots
      ((h.slots i).congr ⟨rfl, rfl, rfl, rfl⟩)) rfl rfl
  | @reqack i _ _ _ rxmitId _ _ =>
    exact h.beside (consistent_requested (consistent_bumped h.slots i rxmitId) i) rfl rfl
  | asyncRound hasync => exact absurd hasync hc.not_asyncRound
  | @form pos bytes _ data _ _ _ _ _ _ _ =>
    exact h.beside (consistent_formed h.slots pos bytes data) rfl rfl
  | finish _ => exact h.beside h.slots rfl rfl
  | @encode i fecData _ _ =>
    exact h.beside (consistent_modify (f := fun s => { s with fecData := fecData }) h.slots
      ((h.slots i).congr ⟨rfl, rfl, rfl, rfl⟩)) rfl rfl
  | @transmit i ds _ _ _ =>
    exact h.beside (consistent_requested (consistent_transmitted h.slots i ds) i) rfl rfl
  | @transmitAsync i ds c q _ _ _ _ _ =>
    exact h.beside (consistent_released (x := x.send ds) h.slots i c q) rfl rfl
  | @timeout i _ rxmitId _ _ =>
    exact h.beside (consistent_requested
      (consistent_bumped (x := { x with db := afterDrop x i }) h.slots i rxmitId) i) rfl rfl
  | allDropped _ _ => exact h.beside h.slots rfl rfl
  | readerWait _ hw =>
    rcases readerWait_frame hw with rfl | ⟨_, _, rfl⟩
    · exact h.beside h.slots rfl rfl
    · exact h.beside h.slots rfl rfl
  | readEnd _ => exact h.beside h.slots rfl rfl
  | read _ _ => exact h.beside h.slots rfl rfl
  | readerConsumed _ _ => exact h.beside h.slots rfl rfl
  | readerWrite _ _ => exact h.beside h.slots rfl rfl
  | readerProduced _ _ => exact h.beside h.slots rfl rfl

end Bookkept

theorem bookkept_start {config : NetConfig} {db : ParticipantsDb} {x : Sender}
    (h : Sender.start config db = some x) : Bookkept x := by
  simp only [Sender.start, Option.bind_eq_bind, Option.bind_eq_some_iff] at h
  obtain ⟨fifo, -, nrFec, -, c₁, -, c₂, -, h⟩ := h
  obtain rfl := Option.some.inj h
  exact ⟨fun i => consistent_of_empty rfl rfl rfl rfl,
    fun m hm => absurd hm (Option.some_ne_none m).symm, fun m hm => absurd hm List.not_mem_nil⟩

/-- In every run of the sender the counters of every slot are the sizes of its sets and a
participant that is ready has answered, so that a DISCONNECT takes nothing from a zero counter. -/
theorem handleMessage_bookkeeping (config : NetConfig) (db : ParticipantsDb) (x₀ x : Sender)
    (hstart : Sender.start config db = some x₀)
    (hrun : Run.Reach SendData.step (fun _ _ => True) x₀ x) (i : Fin 8) :
    (x.slices i).nrReady = (Bitmap.bits (x.slices i).readySet).card ∧
      (x.slices i).nrAnswered = (Bitmap.bits (x.slices i).answeredSet).card ∧
      Bitmap.bits (x.slices i).readySet ⊆ Bitmap.bits (x.slices i).answeredSet ∧
      ∀ cl, ((x.slices i).readySet.getLsbD cl = true → 0 < (x.slices i).nrReady) ∧
        ((x.slices i).answeredSet.getLsbD cl = true → 0 < (x.slices i).nrAnswered) := by
  obtain ⟨hbook, -⟩ := hrun.invariant (I := fun x => Bookkept x ∧ Control x)
    ⟨bookkept_start hstart, control_start hstart⟩ fun s a s' ⟨hb, hc⟩ _ hs =>
      ⟨hb.step hc (step_cases hs), hc.step (step_cases hs)⟩
  have h := hbook.slots i
  refine ⟨h.ready, h.answered, fun cl hcl => ?_, fun cl => ⟨h.nrReady_pos, h.nrAnswered_pos⟩⟩
  rw [Bitmap.mem_bits] at hcl ⊢
  exact h.subset cl hcl

/-- An OK and a RETRANSMIT, each twice, and a late DISCONNECT. -/
theorem handleMessage_bookkeeping_repeated : ∃ x : Sender, (x.slices 0).nrReady = 1 ∧
    (Bitmap.bits (x.slices 0).readySet).card = 1 ∧ (x.slices 0).nrAnswered = 1 := by
  have hexec : ((Sender.start halfDuplex twoParticipants).bind fun x =>
      Run.exec step (fun _ _ => True) x (sendOne ++ message (.ok 0 0) ++ message (.ok 0 0) ++
        message (.retransmit 0 1 0 0) ++ message (.retransmit 0 1 0 0) ++
        message (.disconnect 1) ++ List.replicate 5 .dispatch)).map
      (fun x => decide ((x.slices 0).nrReady = 1 ∧ (x.slices 0).nrAnswered = 1))
      = some true := by decide +kernel
  obtain ⟨x, hx, hp⟩ := Option.map_eq_some_iff.mp hexec
  obtain ⟨x₀, hstart, hx⟩ := Option.bind_eq_some_iff.mp hx
  obtain ⟨hready, hanswered⟩ := of_decide_eq_true hp
  obtain ⟨hcount, -⟩ := handleMessage_bookkeeping halfDuplex twoParticipants x₀ x hstart
    (Run.reach_of_exec hx) 0
  exact ⟨x, hready, hcount ▸ hready, hanswered⟩

end Udpcast.SendData
