import Udpcast.Lockstep
import Udpcast.Negotiate.Rendezvous

/-!
# A session

The transfer starts with the table that the rendezvous has filled.  A receiver that is connected then
is a participant, and has the whole input when the sender returns, unless it has been dropped.
-/

namespace Udpcast.Session

open Negotiate EndToEnd ClientTable
open SendData (firstParticipant)

variable {site : Site} {s s' : Negotiate.System} {c : StartConfig} {db : ClientTable}

/-- The round in which the transfer starts: every receiver that is connected has its entry. -/
theorem participants_of_start (h : Agrees site s) {r : Round} (hd : Negotiate.Delivers site s (.round r))
    (hs : Negotiate.step site s (.round r) = some s') (hstart : s'.sender = .transferring c db) :
    c.toNetConfig = site.config.prepared.toNetConfig ∧ (∃ d, Shows db d) ∧
      ∀ a x, s'.receivers a = .connected x → x.blockSize = site.config.blockSize ∧
        ∃ i : ℕ, x.clientNumber = i ∧ db.Occupies i a := by
  obtain ⟨⟨s₁, sent⟩, hround, rfl⟩ := Option.map_eq_some_iff.mp hs
  obtain rfl : s₁ = .transferring c db := hstart
  cases hsender : s.sender with
  | negotiating x =>
    rw [hsender] at hround
    obtain ⟨x', decision, hconclude, hserved⟩ := h.served hd hsender hround
    obtain ⟨htable, -, htransferring⟩ := conclude_cases hconclude
    obtain ⟨hconfig, -⟩ := htransferring c db rfl
    obtain rfl : db = x'.db := htable
    have hregistered := hserved.registered
    refine ⟨hconfig, exists_shows hregistered.length hregistered.valid, fun a y hy => ?_⟩
    have hagreed := h.connected a y hy
    obtain ⟨i, hnumber, hholds⟩ := hagreed.number
    rw [hsender] at hholds
    refine ⟨hagreed.blockSize, i, hnumber, hserved.stays i a ?_ hholds⟩
    intro hleft
    dsimp only at hy hleft
    rw [hy] at hleft
    cases hleft
  | returned db =>
    rw [hsender] at hround
    cases hround
  | transferring c db =>
    rw [hsender] at hround
    cases hround

/-- The receiver asks, and the sender answers. -/
def oneConnects : List Negotiate.Action :=
  [.turn first ⟨0, [], 0⟩, .round requestRound, takesReply first 0]

/-- The table with its entry, at the start of the negotiation and in the main loop. -/
def firstTable : ClientTable :=
  (ClientTable.new.addParticipant first (capBigEndian ||| 73) 4096 false).1

theorem firstParticipant_valid {i : ℕ} (h : firstParticipant.isParticipantValid i = true) : i = 0 := by
  change (Bitmap.insert 0 0).getLsbD i = true at h
  rw [Bitmap.getLsbD_insert (by decide), Bitmap.getLsbD_zero, Bool.false_or] at h
  exact of_decide_eq_true h

theorem firstTable_shows : Shows firstTable firstParticipant := by
  have hentries : firstTable.clientTable =
      ⟨first, true, capBigEndian ||| 73, 4096, false, none⟩ ::
        List.replicate 1023 ⟨⟨0, 0⟩, false, 0, 0, false, none⟩ := by decide +kernel
  have hvalid : ∀ i, firstParticipant.isParticipantValid i = decide (i = 0) := fun i => by
    show (Bitmap.insert 0 0).getLsbD i = _
    rw [Bitmap.getLsbD_insert (by decide), Bitmap.getLsbD_zero, Bool.false_or]
  refine ⟨by decide +kernel, by rw [hentries, List.length_cons, List.length_replicate]; rfl,
    fun i => ?_, fun i _ => ?_⟩
  · rw [hvalid, ClientTable.isParticipantValid, hentries]
    cases i with
    | zero => rfl
    | succ i =>
      rw [List.getElem?_cons_succ, List.getElem?_replicate]
      split
      · simp
      · simp
  · rw [ClientTable.firstAnsweredRound, hentries]
    cases i with
    | zero => rfl
    | succ i =>
      rw [List.getElem?_cons_succ, List.getElem?_replicate]
      split
      · rfl
      · rfl

/-- The receiver gets a packet, its OK gets to the sender, and the main loop goes on. -/
def firstReceives (n : ℤ) (d : Datagram) (turns : ℕ) : List EndToEnd.Action :=
  [.receiver 0 (.receive 0 0 d), .receiver 0 .complete, .receiver 0 (.scan 0)] ++
    (SendData.message (.ok n 0) ++
      .dispatch :: List.replicate turns SendData.Action.advance).map .sender

/-- The byte, the end marker, and the sender's return. -/
def oneByteToFirst : List EndToEnd.Action :=
  [.join 0 500 [], .receiver 0 .seed] ++ SendData.sendOne.map .sender ++
    firstReceives 0 (.data ⟨0, 0, 1⟩ [7]) 9 ++ firstReceives 1 (.reqack ⟨1, 0, 0⟩) 8

theorem oneByteToFirst_run : ∃ x₀ t,
    SendData.Sender.start oneSender.prepared.toNetConfig firstParticipant = some x₀ ∧
    Run.Reach EndToEnd.step FairReads (.start x₀) t ∧ t.sender.phase = .returned ∧
    t.sender.db.isParticipantValid 0 = true ∧ t.sender.input = [7] ∧
    ∀ r ∈ t.receivers 0, r.phase = .polling := by
  have hexec : ((SendData.Sender.start oneSender.prepared.toNetConfig firstParticipant).bind fun x =>
      (Run.exec EndToEnd.step FairReads (.start x) oneByteToFirst).map fun t => (x, t)).map
      (fun p => decide (p.2.sender.phase = .returned ∧ p.2.sender.db.isParticipantValid 0 = true ∧
        p.2.sender.input = [7] ∧ ∀ r ∈ p.2.receivers 0, r.phase = .polling)) = some true := by
    decide +kernel
  obtain ⟨p, hp, hprop⟩ := Option.map_eq_some_iff.mp hexec
  obtain ⟨x₀, hstart, hp⟩ := Option.bind_eq_some_iff.mp hp
  obtain ⟨t, ht, rfl⟩ := Option.map_eq_some_iff.mp hp
  exact ⟨x₀, t, hstart, Run.reach_of_exec ht, of_decide_eq_true hprop⟩

theorem halfDuplex_oneSender : SendData.HalfDuplexFit oneSender.prepared.toNetConfig where
  one := by decide
  slices size hsize := by
    obtain rfl : 130 = size := Option.some.inj hsize
    decide
  blockSize := by decide
  parity hfec := by cases hfec

def hasJoined : Negotiate.Sender → Bool
  | .negotiating x => x.db = firstTable ∧ x.firstConnected = none
  | _ => false

end Udpcast.Session
