import Udpcast.Bitmap
import Udpcast.Protocol

/-!
# The participants of a transfer (participants.rs)

What the sender's main loop does with the table: participants are only removed once the transfer
has started.
-/

namespace Udpcast

/-- `ParticipantsDb` (participants.rs:27-30), with the fields of a client that the main loop reads;
the client with number `i` is in the table when bit `i` of `used` is set. -/
structure ParticipantsDb where
  nrParticipants : ℕ
  used : Bitmap
  firstAnsweredRound : ℕ → Option (ℤ × ℤ)
  nr_eq : nrParticipants = (Bitmap.bits used).card

namespace ParticipantsDb

/-- `is_participant_valid` (participants.rs:50-52). -/
def isParticipantValid (db : ParticipantsDb) (i : ℕ) : Bool := db.used.getLsbD i

theorem card_erase {db : ParticipantsDb} {i : ℕ} (h : db.isParticipantValid i = true) :
    db.nrParticipants - 1 = (Bitmap.bits (Bitmap.erase db.used i)).card := by
  rw [Bitmap.bits_erase, Finset.card_erase_of_mem (Bitmap.mem_bits.mpr h), db.nr_eq]

/-- `remove_participant` (participants.rs:54-63). -/
def removeParticipant (db : ParticipantsDb) (i : ℕ) : ParticipantsDb :=
  if h : db.isParticipantValid i = true then
    { db with
      nrParticipants := db.nrParticipants - 1
      used := Bitmap.erase db.used i
      nr_eq := card_erase h }
  else db

/-- `mark_answered` (participants.rs:114-135), as far as the drop budget goes. -/
def markAnswered (db : ParticipantsDb) (i : ℕ) (sliceNo : Option ℤ) (round : ℤ) : ParticipantsDb :=
  match sliceNo with
  | none => db
  | some s =>
    if i < maxClients ∧ (db.firstAnsweredRound i).all (fun p => p.1 ≠ s) then
      { db with firstAnsweredRound := Function.update db.firstAnsweredRound i (some (s, round)) }
    else db

variable (db : ParticipantsDb) (i : ℕ)

theorem used_removeParticipant : (db.removeParticipant i).used = Bitmap.erase db.used i := by
  rw [removeParticipant]
  split
  · rfl
  · rename_i h
    -- the bit was not set
    refine BitVec.eq_of_getLsbD_eq fun j _ => ?_
    rw [Bitmap.getLsbD_erase]
    by_cases hj : j = i
    · subst hj
      rw [isParticipantValid, Bool.not_eq_true] at h
      simp [h]
    · simp [hj]

@[simp] theorem used_markAnswered (s : Option ℤ) (round : ℤ) :
    (db.markAnswered i s round).used = db.used := by
  unfold markAnswered
  split
  · rfl
  · split
    · rfl
    · rfl

end ParticipantsDb

end Udpcast
