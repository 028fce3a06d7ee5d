import Udpcast.Participants
import Udpcast.Lib.Fold

/-!
# The table of participants (participants.rs:5-155)

The whole of `ParticipantsDb`, with every operation that changes it: the receivers that join, the
ones that leave, and the answers that are noted.  An entry is used again once its participant has
left.
-/

namespace Udpcast

structure SocketAddrV4 where
  ip : BitVec 32
  port : BitVec 16
  deriving DecidableEq

/-- `ClientDesc` (participants.rs:6-25). -/
structure ClientDesc where
  addr : SocketAddrV4
  used : Bool
  capabilities : BitVec 32
  rcvbuf : BitVec 32
  everAnswered : Bool
  firstAnsweredRound : Option (ℤ × ℤ)
  deriving DecidableEq

/-- `ParticipantsDb` (participants.rs:27-30). -/
structure ClientTable where
  nrParticipants : ℕ
  clientTable : List ClientDesc
  deriving DecidableEq

namespace ClientTable

/-- `ParticipantsDb::new` (participants.rs:33-47). -/
def new : ClientTable where
  nrParticipants := 0
  clientTable := List.replicate maxClients
    { addr := ⟨0, 0⟩, used := false, capabilities := 0, rcvbuf := 0, everAnswered := false,
      firstAnsweredRound := none }

/-- `lookup_participant` (participants.rs:65-72). -/
def lookupParticipant (db : ClientTable) (addr : SocketAddrV4) : ℤ :=
  match db.clientTable.findIdx? fun client => client.used && client.addr == addr with
  | some i => i
  | none => -1

/-- The loop of `add_participant` over the entries: the first that is not in use, and with
`pointopoint` no other than the first. -/
def freeEntry (pointopoint : Bool) : List ClientDesc → Option ℕ
  | [] => none
  | client :: rest =>
    if !client.used then some 0
    else if pointopoint then none
    else (freeEntry pointopoint rest).map (· + 1)

/-- `add_participant` (participants.rs:78-106). -/
def addParticipant (db : ClientTable) (addr : SocketAddrV4) (capabilities rcvbuf : BitVec 32)
    (pointopoint : Bool) : ClientTable × ℤ :=
  if db.lookupParticipant addr ≥ 0 then (db, db.lookupParticipant addr)
  else
    match freeEntry pointopoint db.clientTable with
    | some i =>
      ({ nrParticipants := db.nrParticipants + 1
         clientTable := db.clientTable.modify i fun client =>
          { client with addr, used := true, capabilities, rcvbuf } }, i)
    | none => (db, -1)

/-- `remove_participant` (participants.rs:54-63). -/
def removeParticipant (db : ClientTable) (i : ℕ) : ClientTable :=
  match db.clientTable[i]? with
  | some client =>
    if client.used then
      { nrParticipants := db.nrParticipants - 1
        clientTable := db.clientTable.modify i fun client => { client with used := false } }
    else db
  | none => db

/-- `mark_answered` (participants.rs:115-136). -/
def markAnswered (db : ClientTable) (i : ℕ) (sliceNo : Option ℤ) (round : ℤ) : ClientTable :=
  { db with
    clientTable := db.clientTable.modify i fun client =>
      { client with
        everAnswered := true
        firstAnsweredRound :=
          match sliceNo with
          | some sn =>
            if client.firstAnsweredRound.all fun p => p.1 ≠ sn then some (sn, round)
            else client.firstAnsweredRound
          | none => client.firstAnsweredRound } }

/-- `is_participant_valid`, `ever_answered` and `first_answered_round`
(participants.rs:50-52, 138-148). -/
def isParticipantValid (db : ClientTable) (i : ℕ) : Bool :=
  db.clientTable[i]?.elim false ClientDesc.used

def everAnswered (db : ClientTable) (i : ℕ) : Bool :=
  db.clientTable[i]?.elim false ClientDesc.everAnswered

def firstAnsweredRound (db : ClientTable) (i : ℕ) : Option (ℤ × ℤ) :=
  db.clientTable[i]?.bind ClientDesc.firstAnsweredRound

/-- The calls of the operations. -/
inductive Call
  | addParticipant (addr : SocketAddrV4) (capabilities rcvbuf : BitVec 32) (pointopoint : Bool)
  | removeParticipant (i : ℕ)
  | lookupParticipant (addr : SocketAddrV4)
  | markAnswered (i : ℕ) (sliceNo : Option ℤ) (round : ℤ)
  deriving DecidableEq

def call (db : ClientTable) : Call → ClientTable
  | .addParticipant addr capabilities rcvbuf pointopoint =>
    (db.addParticipant addr capabilities rcvbuf pointopoint).1
  | .removeParticipant i => db.removeParticipant i
  | .lookupParticipant _ => db
  | .markAnswered i sliceNo round => db.markAnswered i sliceNo round

/-- The table after a sequence of calls. -/
def afterCalls (calls : List Call) : ClientTable := calls.foldl call new

/-! ## What a single call does -/

/-- Participant `i` is at `addr`. -/
def Occupies (db : ClientTable) (i : ℕ) (addr : SocketAddrV4) : Prop :=
  ∃ client, db.clientTable[i]? = some client ∧ client.used = true ∧ client.addr = addr

variable {db : ClientTable} {i j : ℕ} {addr : SocketAddrV4} {capabilities rcvbuf : BitVec 32}
  {pointopoint : Bool}

theorem freeEntry_eq_some {l : List ClientDesc} (h : freeEntry pointopoint l = some i) :
    (∃ client, l[i]? = some client ∧ client.used = false) ∧ (pointopoint = true → i = 0) := by
  induction l generalizing i with
  | nil => cases h
  | cons client rest ih =>
    rw [freeEntry] at h
    by_cases hused : client.used = true
    · rw [hused] at h
      cases pointopoint with
      | true => cases h
      | false =>
        obtain ⟨k, hk, rfl⟩ := Option.map_eq_some_iff.mp h
        have hrest := (ih hk).1
        exact ⟨by simpa using hrest, nofun⟩
    · rw [Bool.not_eq_true] at hused
      rw [hused] at h
      obtain rfl := Option.some.inj h
      exact ⟨⟨client, rfl, hused⟩, fun _ => rfl⟩

theorem lookupParticipant_eq_neg_one (h : ∀ i, ¬db.Occupies i addr) :
    db.lookupParticipant addr = -1 := by
  have hnone : db.clientTable.findIdx? (fun client => client.used && client.addr == addr) = none := by
    rw [List.findIdx?_eq_none_iff]
    intro client hmem
    obtain ⟨i, hi⟩ := List.mem_iff_getElem?.mp hmem
    have hfree := h i
    rw [Bool.eq_false_iff, Ne, Bool.and_eq_true, beq_iff_eq]
    exact fun hc => hfree ⟨client, hi, hc.1, hc.2⟩
  rw [lookupParticipant, hnone]

/-- A number that `lookup_participant` returns is that of a participant at the address. -/
theorem lookupParticipant_cases (db : ClientTable) (addr : SocketAddrV4) :
    (∃ i : ℕ, db.lookupParticipant addr = i ∧ db.Occupies i addr) ∨
      db.lookupParticipant addr = -1 ∧ ∀ i, ¬db.Occupies i addr := by
  by_cases h : ∃ i, db.Occupies i addr
  · left
    obtain ⟨i, client, hi, hused, haddr⟩ := h
    cases hfind : db.clientTable.findIdx? fun client => client.used && client.addr == addr with
    | none =>
      have hmem := List.findIdx?_eq_none_iff.mp hfind client (List.mem_of_getElem? hi)
      simp [hused, haddr] at hmem
    | some k =>
      obtain ⟨hk, hp, -⟩ := List.findIdx?_eq_some_iff_getElem.mp hfind
      rw [Bool.and_eq_true, beq_iff_eq] at hp
      exact ⟨k, by rw [lookupParticipant, hfind], _, List.getElem?_eq_getElem hk, hp.1, hp.2⟩
  · right
    have hnone : ∀ i, ¬db.Occupies i addr := fun i hi => h ⟨i, hi⟩
    exact ⟨lookupParticipant_eq_neg_one hnone, hnone⟩

/-- What `add_participant` can do: find the participant, take a free entry, or refuse. -/
theorem addParticipant_cases (db : ClientTable) (addr : SocketAddrV4)
    (capabilities rcvbuf : BitVec 32) (pointopoint : Bool) :
    (∃ i : ℕ, db.Occupies i addr ∧
      db.addParticipant addr capabilities rcvbuf pointopoint = (db, (i : ℤ))) ∨
    (∃ i : ℕ, (∀ j, ¬db.Occupies j addr) ∧ freeEntry pointopoint db.clientTable = some i ∧
      db.addParticipant addr capabilities rcvbuf pointopoint =
        ({ nrParticipants := db.nrParticipants + 1
           clientTable := db.clientTable.modify i fun client =>
            { client with addr, used := true, capabilities, rcvbuf } }, (i : ℤ))) ∨
    db.addParticipant addr capabilities rcvbuf pointopoint = (db, -1) := by
  obtain ⟨i, hlook, hi⟩ | ⟨hlook, hnone⟩ := lookupParticipant_cases db addr
  · left
    refine ⟨i, hi, ?_⟩
    rw [addParticipant, if_pos (by rw [hlook]; exact Int.natCast_nonneg i), hlook]
  · right
    have hneg : ¬db.lookupParticipant addr ≥ 0 := by
      rw [hlook]
      decide
    rw [addParticipant, if_neg hneg]
    cases hfree : freeEntry pointopoint db.clientTable with
    | none => exact Or.inr rfl
    | some i => exact Or.inl ⟨i, hnone, rfl, rfl⟩

/-- What `remove_participant` can do. -/
theorem removeParticipant_cases (db : ClientTable) (i : ℕ) :
    (∃ client, db.clientTable[i]? = some client ∧ client.used = true ∧
      db.removeParticipant i =
        { nrParticipants := db.nrParticipants - 1
          clientTable := db.clientTable.modify i fun client => { client with used := false } }) ∨
    (∀ client, db.clientTable[i]? = some client → client.used = false) ∧
      db.removeParticipant i = db := by
  rw [removeParticipant]
  cases hi : db.clientTable[i]? with
  | none => exact Or.inr ⟨nofun, rfl⟩
  | some client =>
    dsimp only
    by_cases hused : client.used = true
    · rw [if_pos hused]
      exact Or.inl ⟨client, rfl, hused, rfl⟩
    · rw [if_neg hused]
      right
      refine ⟨?_, rfl⟩
      intro c hc
      obtain rfl := Option.some.inj hc
      rwa [Bool.not_eq_true] at hused

theorem modify_eq_some {l : List ClientDesc} {k : ℕ} {f : ClientDesc → ClientDesc}
    {client : ClientDesc} :
    (l.modify k f)[i]? = some client ↔
      i = k ∧ (∃ old, l[k]? = some old ∧ f old = client) ∨ i ≠ k ∧ l[i]? = some client := by
  by_cases hi : i = k
  · subst hi
    simp
  · rw [List.getElem?_modify_ne f l (Ne.symm hi)]
    simp [hi]

theorem countP_modify {l : List ClientDesc} {k : ℕ} {f : ClientDesc → ClientDesc}
    {client : ClientDesc} (hk : l[k]? = some client) :
    (l.modify k f).countP ClientDesc.used + (if client.used then 1 else 0) =
      l.countP ClientDesc.used + (if (f client).used then 1 else 0) := by
  obtain ⟨hlt, rfl⟩ := List.getElem?_eq_some_iff.mp hk
  have hle : (if l[k].used = true then 1 else 0) ≤ l.countP ClientDesc.used :=
    List.boole_getElem_le_countP (p := ClientDesc.used) hlt
  rw [List.modify_eq_set_getElem?, hk, Option.map_eq_map, Option.map_some, Option.getD_some,
    List.countP_set hlt]
  omega

theorem occupies_markAnswered {sliceNo : Option ℤ} {round : ℤ} :
    (db.markAnswered j sliceNo round).Occupies i addr ↔ db.Occupies i addr := by
  unfold Occupies markAnswered
  constructor
  · rintro ⟨client, hi, hused, haddr⟩
    obtain ⟨rfl, old, hold, rfl⟩ | ⟨-, hi⟩ := modify_eq_some.mp hi
    · exact ⟨old, hold, hused, haddr⟩
    · exact ⟨client, hi, hused, haddr⟩
  · rintro ⟨client, hi, hused, haddr⟩
    by_cases hij : i = j
    · subst hij
      exact ⟨_, modify_eq_some.mpr (Or.inl ⟨rfl, client, hi, rfl⟩), hused, haddr⟩
    · exact ⟨client, modify_eq_some.mpr (Or.inr ⟨hij, hi⟩), hused, haddr⟩

theorem occupies_removeParticipant :
    (db.removeParticipant j).Occupies i addr ↔ i ≠ j ∧ db.Occupies i addr := by
  obtain ⟨old, hj, hold, heq⟩ | ⟨hfree, heq⟩ := removeParticipant_cases db j
  · rw [heq]
    constructor
    · rintro ⟨client, hi, hused, haddr⟩
      obtain ⟨-, _, -, hclient⟩ | ⟨hij, hi⟩ := modify_eq_some.mp hi
      · rw [← hclient] at hused
        cases hused
      · exact ⟨hij, client, hi, hused, haddr⟩
    · rintro ⟨hij, client, hi, hused, haddr⟩
      exact ⟨client, modify_eq_some.mpr (Or.inr ⟨hij, hi⟩), hused, haddr⟩
  · rw [heq, iff_and_self]
    rintro ⟨client, hi, hused, -⟩ rfl
    have hunused := hfree client hi
    rw [hused] at hunused
    cases hunused

theorem occupies_modify {k : ℕ} {nr : ℕ} {other : SocketAddrV4}
    (hk : ∃ client, db.clientTable[k]? = some client ∧ client.used = false) :
    ({ nrParticipants := nr
       clientTable := db.clientTable.modify k fun client =>
        { client with addr := other, used := true, capabilities, rcvbuf } } :
          ClientTable).Occupies i addr ↔ i = k ∧ addr = other ∨ db.Occupies i addr := by
  obtain ⟨free, hfree, hunused⟩ := hk
  constructor
  · rintro ⟨client, hi, hused, haddr⟩
    obtain ⟨rfl, old, hold, rfl⟩ | ⟨-, hi⟩ := modify_eq_some.mp hi
    · exact Or.inl ⟨rfl, haddr.symm⟩
    · exact Or.inr ⟨client, hi, hused, haddr⟩
  · rintro (⟨rfl, rfl⟩ | ⟨client, hi, hused, haddr⟩)
    · exact ⟨_, modify_eq_some.mpr (Or.inl ⟨rfl, free, hfree, rfl⟩), rfl, rfl⟩
    · have hik : i ≠ k := by
        rintro rfl
        rw [hfree, Option.some_inj] at hi
        rw [← hi, hunused] at hused
        cases hused
      exact ⟨client, modify_eq_some.mpr (Or.inr ⟨hik, hi⟩), hused, haddr⟩

/-! ## The invariant -/

/-- The count is that of the entries in use, and no address has two of them. -/
structure Valid (db : ClientTable) : Prop where
  nr_eq : db.nrParticipants = db.clientTable.countP ClientDesc.used
  distinct : ∀ i j addr, db.Occupies i addr → db.Occupies j addr → i = j

theorem new_occupies : ¬new.Occupies i addr := by
  rintro ⟨client, hi, hused, -⟩
  have hmem := List.mem_of_getElem? hi
  rw [new, List.mem_replicate] at hmem
  rw [hmem.2] at hused
  cases hused

theorem Valid.new : Valid new where
  nr_eq := by
    rw [ClientTable.new, List.countP_replicate]
    rfl
  distinct := fun i _ _ hi => absurd hi new_occupies

theorem Valid.markAnswered (h : db.Valid) (i : ℕ) (sliceNo : Option ℤ) (round : ℤ) :
    (db.markAnswered i sliceNo round).Valid where
  nr_eq := by
    unfold ClientTable.markAnswered
    dsimp only
    rw [h.nr_eq]
    cases hi : db.clientTable[i]? with
    | none =>
      rw [List.getElem?_eq_none_iff] at hi
      rw [List.modify_eq_self hi]
    | some client =>
      have hcount := countP_modify (f := fun client : ClientDesc =>
        { client with
          everAnswered := true
          firstAnsweredRound :=
            match sliceNo with
            | some sn =>
              if client.firstAnsweredRound.all fun p => p.1 ≠ sn then some (sn, round)
              else client.firstAnsweredRound
            | none => client.firstAnsweredRound }) hi
      dsimp only at hcount
      omega
  distinct := fun i j addr hi hj =>
    h.distinct i j addr (occupies_markAnswered.mp hi) (occupies_markAnswered.mp hj)

theorem Valid.removeParticipant (h : db.Valid) (i : ℕ) : (db.removeParticipant i).Valid where
  nr_eq := by
    obtain ⟨client, hi, hused, heq⟩ | ⟨-, heq⟩ := removeParticipant_cases db i
    · have hcount := countP_modify (f := fun client : ClientDesc => { client with used := false }) hi
      rw [heq]
      dsimp only
      rw [if_pos hused, if_neg Bool.false_ne_true] at hcount
      have hnr := h.nr_eq
      omega
    · rw [heq]
      exact h.nr_eq
  distinct := fun j k addr hj hk =>
    h.distinct j k addr (occupies_removeParticipant.mp hj).2 (occupies_removeParticipant.mp hk).2

theorem Valid.addParticipant (h : db.Valid) (addr : SocketAddrV4)
    (capabilities rcvbuf : BitVec 32) (pointopoint : Bool) :
    (db.addParticipant addr capabilities rcvbuf pointopoint).1.Valid := by
  obtain ⟨i, -, heq⟩ | ⟨i, hnone, hfree, heq⟩ | heq :=
    addParticipant_cases db addr capabilities rcvbuf pointopoint
  · rw [heq]
    exact h
  · have hentry := (freeEntry_eq_some hfree).1
    rw [heq]
    refine ⟨?_, ?_⟩
    · obtain ⟨client, hi, hunused⟩ := hentry
      have hcount := countP_modify (f := fun client : ClientDesc =>
        { client with addr, used := true, capabilities, rcvbuf }) hi
      rw [hunused, if_neg Bool.false_ne_true, if_pos rfl] at hcount
      dsimp only
      rw [h.nr_eq, ← hcount, Nat.add_zero]
    · intro j k a hj hk
      -- nobody was at the address of the new participant
      obtain ⟨rfl, rfl⟩ | hj' := (occupies_modify hentry).mp hj
      · obtain ⟨rfl, -⟩ | hk' := (occupies_modify hentry).mp hk
        · rfl
        · exact absurd hk' (hnone k)
      · obtain ⟨rfl, rfl⟩ | hk' := (occupies_modify hentry).mp hk
        · exact absurd hj' (hnone j)
        · exact h.distinct j k a hj' hk'
  · rw [heq]
    exact h

theorem Valid.call (h : db.Valid) (c : Call) : (db.call c).Valid := by
  cases c with
  | addParticipant addr capabilities rcvbuf pointopoint => exact h.addParticipant ..
  | removeParticipant i => exact h.removeParticipant i
  | lookupParticipant addr => exact h
  | markAnswered i sliceNo round => exact h.markAnswered ..

theorem afterCalls_concat (calls : List Call) (c : Call) :
    afterCalls (calls ++ [c]) = (afterCalls calls).call c := by
  rw [afterCalls, List.foldl_append]
  rfl

theorem valid_afterCalls (calls : List Call) : (afterCalls calls).Valid := by
  induction calls using List.reverseRecOn with
  | nil => exact Valid.new
  | append_singleton calls c ih =>
    rw [afterCalls_concat]
    exact ih.call c

/-! ## Participants over a run -/

theorem Valid.lookupParticipant (h : db.Valid) (hi : db.Occupies i addr) :
    db.lookupParticipant addr = i := by
  obtain ⟨j, hlook, hj⟩ | ⟨-, hnone⟩ := lookupParticipant_cases db addr
  · rw [hlook, h.distinct i j addr hi hj]
  · exact absurd hi (hnone i)

theorem occupies_addParticipant
    (h : (db.addParticipant addr capabilities rcvbuf pointopoint).2 = (i : ℤ)) :
    (db.addParticipant addr capabilities rcvbuf pointopoint).1.Occupies i addr := by
  obtain ⟨k, hk, heq⟩ | ⟨k, -, hfree, heq⟩ | heq :=
    addParticipant_cases db addr capabilities rcvbuf pointopoint
  · rw [heq] at h ⊢
    obtain rfl := Int.ofNat.inj h
    exact hk
  · rw [heq] at h ⊢
    obtain rfl := Int.ofNat.inj h
    exact (occupies_modify (freeEntry_eq_some hfree).1).mpr (Or.inl ⟨rfl, rfl⟩)
  · rw [heq] at h
    cases h

theorem Occupies.call {c : Call} (h : db.Occupies i addr) (hc : c ≠ .removeParticipant i) :
    (db.call c).Occupies i addr := by
  cases c with
  | addParticipant other capabilities rcvbuf pointopoint =>
    dsimp only [ClientTable.call]
    obtain ⟨k, -, heq⟩ | ⟨k, -, hfree, heq⟩ | heq :=
      addParticipant_cases db other capabilities rcvbuf pointopoint
    · rw [heq]
      exact h
    · rw [heq]
      exact (occupies_modify (freeEntry_eq_some hfree).1).mpr (Or.inr h)
    · rw [heq]
      exact h
  | removeParticipant j =>
    refine occupies_removeParticipant.mpr ⟨?_, h⟩
    rintro rfl
    exact hc rfl
  | lookupParticipant other => exact h
  | markAnswered j sliceNo round => exact occupies_markAnswered.mpr h

theorem Occupies.foldl_call {calls : List Call} (h : db.Occupies i addr)
    (hcalls : .removeParticipant i ∉ calls) : (calls.foldl ClientTable.call db).Occupies i addr := by
  induction calls generalizing db with
  | nil => exact h
  | cons c calls ih =>
    rw [List.mem_cons, not_or] at hcalls
    exact ih (h.call (Ne.symm hcalls.1)) hcalls.2

/-- Every call that adds a participant is one of a point-to-point transfer. -/
def PointToPoint (calls : List Call) : Prop :=
  ∀ addr capabilities rcvbuf pointopoint,
    .addParticipant addr capabilities rcvbuf pointopoint ∈ calls → pointopoint = true

theorem occupies_pointToPoint {calls : List Call} (hcalls : PointToPoint calls)
    (h : (afterCalls calls).Occupies i addr) : i = 0 := by
  induction calls using List.reverseRecOn generalizing i addr with
  | nil => exact absurd h new_occupies
  | append_singleton calls c ih =>
    have hpast : PointToPoint calls := fun a cap rb p hmem =>
      hcalls a cap rb p (List.mem_append_left _ hmem)
    rw [afterCalls_concat] at h
    cases c with
    | addParticipant other capabilities rcvbuf pointopoint =>
      have hp : pointopoint = true :=
        hcalls other capabilities rcvbuf pointopoint (List.mem_append_right _ List.mem_cons_self)
      dsimp only [call] at h
      obtain ⟨k, -, heq⟩ | ⟨k, -, hfree, heq⟩ | heq :=
        addParticipant_cases (afterCalls calls) other capabilities rcvbuf pointopoint
      · rw [heq] at h
        exact ih hpast h
      · rw [heq] at h
        obtain ⟨hentry, hzero⟩ := freeEntry_eq_some hfree
        obtain ⟨rfl, -⟩ | h := (occupies_modify hentry).mp h
        · exact hzero hp
        · exact ih hpast h
      · rw [heq] at h
        exact ih hpast h
    | removeParticipant j => exact ih hpast (occupies_removeParticipant.mp h).2
    | lookupParticipant other => exact ih hpast h
    | markAnswered j sliceNo round => exact ih hpast (occupies_markAnswered.mp h)

/-! ## Answers over a run -/

/-- An answer has been noted for the index at some time. -/
def Answered (calls : List Call) (i : ℕ) : Prop :=
  ∃ sliceNo round, .markAnswered i sliceNo round ∈ calls

theorem answered_concat {calls : List Call} {c : Call} :
    Answered (calls ++ [c]) i ↔
      Answered calls i ∨ ∃ sliceNo round, c = .markAnswered i sliceNo round := by
  unfold Answered
  constructor
  · rintro ⟨sliceNo, round, h⟩
    obtain h | h := List.mem_append.mp h
    · exact Or.inl ⟨sliceNo, round, h⟩
    · exact Or.inr ⟨sliceNo, round, (List.mem_singleton.mp h).symm⟩
  · rintro (⟨sliceNo, round, h⟩ | ⟨sliceNo, round, rfl⟩)
    · exact ⟨sliceNo, round, List.mem_append_left _ h⟩
    · exact ⟨sliceNo, round, List.mem_append_right _ List.mem_cons_self⟩

/-- What an entry says about answers is what has been noted for its index, by whomever. -/
structure AnswersNoted (db : ClientTable) (calls : List Call) : Prop where
  ever : ∀ (i : ℕ) (client : ClientDesc), db.clientTable[i]? = some client →
    (client.everAnswered = true ↔ Answered calls i)
  first : ∀ (i : ℕ) (client : ClientDesc), db.clientTable[i]? = some client →
    client.everAnswered = false → client.firstAnsweredRound = none

theorem AnswersNoted.modify {calls : List Call} (h : AnswersNoted db calls) {k nr : ℕ}
    {f : ClientDesc → ClientDesc} (hf : ∀ client, (f client).everAnswered = client.everAnswered ∧
      (f client).firstAnsweredRound = client.firstAnsweredRound) :
    AnswersNoted { nrParticipants := nr, clientTable := db.clientTable.modify k f } calls where
  ever := by
    intro i client hi
    obtain ⟨rfl, old, hold, rfl⟩ | ⟨-, hi⟩ := modify_eq_some.mp hi
    · rw [(hf old).1]
      exact h.ever _ old hold
    · exact h.ever i client hi
  first := by
    intro i client hi hever
    obtain ⟨rfl, old, hold, rfl⟩ | ⟨-, hi⟩ := modify_eq_some.mp hi
    · rw [(hf old).1] at hever
      rw [(hf old).2]
      exact h.first _ old hold hever
    · exact h.first i client hi hever

theorem AnswersNoted.markAnswered {calls : List Call} (h : AnswersNoted db calls) (k : ℕ)
    (sliceNo : Option ℤ) (round : ℤ) :
    AnswersNoted (db.markAnswered k sliceNo round) (calls ++ [.markAnswered k sliceNo round]) where
  ever := by
    intro i client hi
    rw [answered_concat]
    obtain ⟨rfl, old, hold, rfl⟩ | ⟨hik, hi⟩ := modify_eq_some.mp hi
    · exact ⟨fun _ => Or.inr ⟨sliceNo, round, rfl⟩, fun _ => rfl⟩
    · rw [h.ever i client hi, iff_self_or]
      rintro ⟨s, r, heq⟩
      exact absurd (Call.markAnswered.inj heq).1.symm hik
  first := by
    intro i client hi hever
    obtain ⟨rfl, old, hold, rfl⟩ | ⟨-, hi⟩ := modify_eq_some.mp hi
    · cases hever
    · exact h.first i client hi hever

theorem AnswersNoted.other {calls : List Call} {c : Call} (h : AnswersNoted db calls)
    (hc : ∀ i sliceNo round, c ≠ .markAnswered i sliceNo round) :
    AnswersNoted db (calls ++ [c]) where
  ever := by
    intro i client hi
    rw [answered_concat, h.ever i client hi, iff_self_or]
    rintro ⟨s, r, heq⟩
    exact absurd heq (hc i s r)
  first := h.first

theorem answersNoted_afterCalls (calls : List Call) : AnswersNoted (afterCalls calls) calls := by
  induction calls using List.reverseRecOn with
  | nil =>
    constructor
    · intro i client hi
      have hmem := List.mem_of_getElem? hi
      rw [afterCalls, List.foldl_nil, new, List.mem_replicate] at hmem
      rw [hmem.2]
      exact ⟨nofun, fun ⟨_, _, h⟩ => absurd h List.not_mem_nil⟩
    · intro i client hi _
      have hmem := List.mem_of_getElem? hi
      rw [afterCalls, List.foldl_nil, new, List.mem_replicate] at hmem
      rw [hmem.2]
  | append_singleton calls c ih =>
    rw [afterCalls_concat]
    cases c with
    | addParticipant addr capabilities rcvbuf pointopoint =>
      dsimp only [call]
      have hnext := ih.other (c := .addParticipant addr capabilities rcvbuf pointopoint) nofun
      obtain ⟨k, -, heq⟩ | ⟨k, -, hfree, heq⟩ | heq :=
        addParticipant_cases (afterCalls calls) addr capabilities rcvbuf pointopoint
      · rw [heq]
        exact hnext
      · rw [heq]
        exact hnext.modify fun _ => ⟨rfl, rfl⟩
      · rw [heq]
        exact hnext
    | removeParticipant j =>
      dsimp only [call]
      have hnext := ih.other (c := .removeParticipant j) nofun
      obtain ⟨client, -, -, heq⟩ | ⟨-, heq⟩ := removeParticipant_cases (afterCalls calls) j
      · rw [heq]
        exact hnext.modify fun _ => ⟨rfl, rfl⟩
      · rw [heq]
        exact hnext
    | lookupParticipant addr => exact ih.other nofun
    | markAnswered j sliceNo round => exact ih.markAnswered j sliceNo round

theorem AnswersNoted.everAnswered {calls : List Call} (h : AnswersNoted db calls)
    (hi : db.Occupies i addr) :
    db.everAnswered i = false ∧ db.firstAnsweredRound i = none ↔ ¬Answered calls i := by
  obtain ⟨client, hi, -, -⟩ := hi
  have hever := h.ever i client hi
  rw [ClientTable.everAnswered, ClientTable.firstAnsweredRound, hi, Option.elim_some,
    Option.bind_some, ← hever, Bool.not_eq_true]
  exact ⟨And.left, fun hc => ⟨hc, h.first i client hi hc⟩⟩

/-! ## The law of the table -/

/-- The call puts a receiver that is not in the table into entry `i`. -/
def Assigns (db : ClientTable) (c : Call) (i : ℕ) : Prop :=
  ∃ addr capabilities rcvbuf pointopoint,
    c = .addParticipant addr capabilities rcvbuf pointopoint ∧ (∀ j, ¬db.Occupies j addr) ∧
      (db.addParticipant addr capabilities rcvbuf pointopoint).2 = i

/-- A receiver that is not in the table asks to join, and `i` is the entry it can have. -/
def Joins (db : ClientTable) (c : Call) (i : ℕ) : Prop :=
  ∃ addr capabilities rcvbuf pointopoint,
    c = .addParticipant addr capabilities rcvbuf pointopoint ∧ (∀ j, ¬db.Occupies j addr) ∧
      freeEntry pointopoint db.clientTable = some i

theorem assigns_iff_joins {c : Call} : db.Assigns c i ↔ db.Joins c i := by
  unfold Assigns Joins
  constructor
  · rintro ⟨addr, capabilities, rcvbuf, pointopoint, hc, hnone, hi⟩
    refine ⟨addr, capabilities, rcvbuf, pointopoint, hc, hnone, ?_⟩
    obtain ⟨k, hk, -⟩ | ⟨k, -, hfree, heq⟩ | heq :=
      addParticipant_cases db addr capabilities rcvbuf pointopoint
    · exact absurd hk (hnone k)
    · rw [heq] at hi
      obtain rfl := Int.ofNat.inj hi
      exact hfree
    · rw [heq] at hi
      cases hi
  · rintro ⟨addr, capabilities, rcvbuf, pointopoint, hc, hnone, hi⟩
    refine ⟨addr, capabilities, rcvbuf, pointopoint, hc, hnone, ?_⟩
    have hneg : ¬db.lookupParticipant addr ≥ 0 := by
      rw [lookupParticipant_eq_neg_one hnone]
      decide
    rw [addParticipant, if_neg hneg, hi]

theorem Assigns.occupies {c : Call} (h : db.Assigns c i) :
    ∃ addr, (db.call c).Occupies i addr := by
  obtain ⟨addr, capabilities, rcvbuf, pointopoint, rfl, -, hi⟩ := h
  exact ⟨addr, occupies_addParticipant hi⟩

/-- What the table promises over a sequence of calls. -/
structure Lawful (calls : List Call) : Prop where
  nr_eq : ∀ past, past <+: calls →
    (afterCalls past).nrParticipants = (afterCalls past).clientTable.countP ClientDesc.used
  distinct : ∀ past, past <+: calls → ∀ i j addr, (afterCalls past).Occupies i addr →
    (afterCalls past).Occupies j addr → i = j
  lookup : ∀ past later addr capabilities rcvbuf pointopoint (i : ℕ),
    past ++ .addParticipant addr capabilities rcvbuf pointopoint :: later <+: calls →
    ((afterCalls past).addParticipant addr capabilities rcvbuf pointopoint).2 = i →
    .removeParticipant i ∉ later →
    (afterCalls (past ++ .addParticipant addr capabilities rcvbuf pointopoint :: later)).lookupParticipant
      addr = i
  pointToPoint : PointToPoint calls → ∀ past past', past <+: calls → past' <+: calls →
    ∀ i j addr addr', (afterCalls past).Occupies i addr → (afterCalls past').Occupies j addr' → i = j
  unanswered : ∀ past c i, past ++ [c] <+: calls → (afterCalls past).Assigns c i →
    (afterCalls (past ++ [c])).everAnswered i = false ∧
      (afterCalls (past ++ [c])).firstAnsweredRound i = none

theorem PointToPoint.of_prefix {calls past : List Call} (h : PointToPoint calls)
    (hpast : past <+: calls) : PointToPoint past := fun addr capabilities rcvbuf pointopoint hmem =>
  h addr capabilities rcvbuf pointopoint (hpast.subset hmem)

theorem lookup_afterCalls {past later : List Call}
    (hi : ((afterCalls past).addParticipant addr capabilities rcvbuf pointopoint).2 = (i : ℤ))
    (hlater : .removeParticipant i ∉ later) :
    (afterCalls (past ++ .addParticipant addr capabilities rcvbuf pointopoint :: later)).lookupParticipant
      addr = i := by
  have hjoined : ((afterCalls past).call
      (.addParticipant addr capabilities rcvbuf pointopoint)).Occupies i addr :=
    occupies_addParticipant hi
  have hstays := hjoined.foldl_call hlater
  apply (valid_afterCalls _).lookupParticipant
  rw [afterCalls, List.foldl_append]
  exact hstays

/-- An entry that is given to a newcomer says that it has answered, if anybody answered under its
number before. -/
theorem afterCalls_lawful (calls : List Call) :
    Lawful calls ↔ ∀ past c i, past ++ [c] <+: calls → (afterCalls past).Joins c i →
      ∀ sliceNo round, .markAnswered i sliceNo round ∉ past := by
  have hnew : ∀ past c i, (afterCalls past).Assigns c i →
      ((afterCalls (past ++ [c])).everAnswered i = false ∧
        (afterCalls (past ++ [c])).firstAnsweredRound i = none ↔ ¬Answered past i) := by
    intro past c i hassigns
    obtain ⟨addr, hoccupies⟩ := hassigns.occupies
    have hnoted := answersNoted_afterCalls (past ++ [c])
    rw [← afterCalls_concat] at hoccupies
    rw [hnoted.everAnswered hoccupies, answered_concat, not_or, and_iff_left]
    obtain ⟨_, _, _, _, rfl, -⟩ := hassigns
    rintro ⟨_, _, hc⟩
    cases hc
  constructor
  · intro h past c i hpast hjoins sliceNo round hmem
    have hassigns := assigns_iff_joins.mpr hjoins
    exact (hnew past c i hassigns).mp (h.unanswered past c i hpast hassigns) ⟨sliceNo, round, hmem⟩
  · intro h
    refine ⟨?_, ?_, ?_, ?_, ?_⟩
    · exact fun past _ => (valid_afterCalls past).nr_eq
    · exact fun past _ => (valid_afterCalls past).distinct
    · exact fun past later _ _ _ _ i _ hi hlater => lookup_afterCalls hi hlater
    · intro hcalls past past' hpast hpast' i j addr addr' hi hj
      rw [occupies_pointToPoint (hcalls.of_prefix hpast) hi,
        occupies_pointToPoint (hcalls.of_prefix hpast') hj]
    · intro past c i hpast hassigns
      rw [hnew past c i hassigns]
      rintro ⟨sliceNo, round, hmem⟩
      exact h past c i hpast (assigns_iff_joins.mp hassigns) sliceNo round hmem

/-- A receiver joins, answers and leaves, and another one joins. -/
def joinAgain : List Call :=
  [.addParticipant ⟨1, 1⟩ 0 0 false, .markAnswered 0 (some 3) 1, .removeParticipant 0,
    .addParticipant ⟨2, 1⟩ 0 0 false]

theorem afterCalls_newcomer_answered : ¬Lawful joinAgain := by
  intro h
  have hassigns : (afterCalls (joinAgain.take 3)).Assigns (.addParticipant ⟨2, 1⟩ 0 0 false) 0 := by
    refine assigns_iff_joins.mpr ⟨_, _, _, _, rfl, ?_, by decide +kernel⟩
    intro j hj
    have hlook := (valid_afterCalls _).lookupParticipant hj
    have hnone : (afterCalls (joinAgain.take 3)).lookupParticipant ⟨2, 1⟩ = -1 := by
      decide +kernel
    omega
  have hans := (h.unanswered (joinAgain.take 3) _ 0 (List.prefix_refl _) hassigns).1
  have hfalse : (afterCalls (joinAgain.take 3 ++ [.addParticipant ⟨2, 1⟩ 0 0 false])).everAnswered 0 =
      true := by decide +kernel
  rw [hfalse] at hans
  cases hans

/-! ## The table of the main loop -/

/-- The table has, of the fields that the main loop reads, what `db` says. -/
structure Shows (t : ClientTable) (db : ParticipantsDb) : Prop where
  nr_eq : t.nrParticipants = db.nrParticipants
  length_eq : t.clientTable.length = maxClients
  used_eq : ∀ i, t.isParticipantValid i = db.isParticipantValid i
  first_eq : ∀ i, i < maxClients → t.firstAnsweredRound i = db.firstAnsweredRound i

variable {t : ClientTable} {d : ParticipantsDb}

theorem isParticipantValid_iff : t.isParticipantValid i = true ↔ ∃ addr, t.Occupies i addr := by
  unfold isParticipantValid Occupies
  cases t.clientTable[i]? with
  | none => exact ⟨nofun, fun ⟨_, _, h, _⟩ => nomatch h⟩
  | some client =>
    constructor
    · exact fun h => ⟨client.addr, client, rfl, h, rfl⟩
    · rintro ⟨_, c, hc, hused, -⟩
      obtain rfl := Option.some.inj hc
      exact hused

theorem card_used (l : List ClientDesc) : l.countP ClientDesc.used =
    ((Finset.range l.length).filter fun i => l[i]?.elim false ClientDesc.used = true).card := by
  induction l using List.reverseRecOn with
  | nil => rfl
  | append_singleton l client ih =>
    have hpast : ((Finset.range l.length).filter fun i =>
        (l ++ [client])[i]?.elim false ClientDesc.used = true) =
        (Finset.range l.length).filter fun i => l[i]?.elim false ClientDesc.used = true := by
      refine Finset.filter_congr fun i hi => ?_
      rw [List.getElem?_append_left (Finset.mem_range.mp hi)]
    rw [List.countP_append, ih, List.length_append, List.length_singleton, Finset.range_add_one,
      Finset.filter_insert, hpast, List.getElem?_append_right le_rfl, Nat.sub_self]
    cases hused : client.used with
    | true =>
      rw [if_pos (by simpa using hused), Finset.card_insert_of_notMem (by simp)]
      simp [hused]
    | false =>
      rw [if_neg (by simpa using hused)]
      simp [hused]

theorem length_call (db : ClientTable) (c : Call) :
    (db.call c).clientTable.length = db.clientTable.length := by
  cases c with
  | addParticipant addr capabilities rcvbuf pointopoint =>
    dsimp only [call]
    obtain ⟨k, -, heq⟩ | ⟨k, -, -, heq⟩ | heq :=
      addParticipant_cases db addr capabilities rcvbuf pointopoint
    · rw [heq]
    · rw [heq, List.length_modify]
    · rw [heq]
  | removeParticipant j =>
    dsimp only [call]
    obtain ⟨_, -, -, heq⟩ | ⟨-, heq⟩ := removeParticipant_cases db j
    · rw [heq, List.length_modify]
    · rw [heq]
  | lookupParticipant addr => rfl
  | markAnswered j sliceNo round => exact List.length_modify ..

/-- The main loop starts with a table that the negotiation has filled. -/
theorem exists_shows (hlength : t.clientTable.length = maxClients) (hvalid : t.Valid) :
    ∃ d, Shows t d := by
  have hnr := hvalid.nr_eq
  have hget : ∀ i, ((BitVec.ofBoolListLE (t.clientTable.map ClientDesc.used)).setWidth
      1024).getLsbD i = t.isParticipantValid i := by
    intro i
    rw [BitVec.getLsbD_setWidth, BitVec.getLsbD_ofBoolListLE, List.getD_eq_getElem?_getD,
      List.getElem?_map, isParticipantValid]
    cases hi : t.clientTable[i]? with
    | none => simp
    | some client =>
      have hlt : i < 1024 := by
        have := (List.getElem?_eq_some_iff.mp hi).1
        rw [hlength] at this
        exact this
      simp [hlt]
  refine ⟨{ nrParticipants := t.nrParticipants
            used := (BitVec.ofBoolListLE (t.clientTable.map ClientDesc.used)).setWidth 1024
            firstAnsweredRound := t.firstAnsweredRound
            nr_eq := ?_ }, rfl, hlength, fun i => (hget i).symm, fun _ _ => rfl⟩
  rw [hnr, card_used]
  refine congrArg Finset.card (Finset.ext fun i => ?_)
  rw [Bitmap.mem_bits, hget, Finset.mem_filter, Finset.mem_range, isParticipantValid]
  refine and_iff_right_of_imp fun hused => ?_
  by_contra hlt
  rw [List.getElem?_eq_none (by omega)] at hused
  cases hused

theorem Shows.entry (h : Shows t d) (hi : i < maxClients) :
    ∃ client, t.clientTable[i]? = some client ∧ client.firstAnsweredRound = d.firstAnsweredRound i := by
  have hlt : i < t.clientTable.length := by
    rw [h.length_eq]
    exact hi
  have hfirst := h.first_eq i hi
  have hget : t.clientTable[i]? = some t.clientTable[i] := List.getElem?_eq_getElem hlt
  rw [ClientTable.firstAnsweredRound, hget] at hfirst
  exact ⟨_, hget, hfirst⟩

theorem Shows.markAnswered (h : Shows t d) (i : ℕ) (sliceNo : Option ℤ) (round : ℤ) :
    Shows (t.markAnswered i sliceNo round) (d.markAnswered i sliceNo round) where
  nr_eq := by
    have hnr : (d.markAnswered i sliceNo round).nrParticipants = d.nrParticipants := by
      unfold ParticipantsDb.markAnswered
      cases sliceNo with
      | none => rfl
      | some sn =>
        dsimp only
        split
        · rfl
        · rfl
    rw [hnr]
    exact h.nr_eq
  length_eq := by
    rw [ClientTable.markAnswered, List.length_modify]
    exact h.length_eq
  used_eq := by
    intro j
    rw [ParticipantsDb.isParticipantValid, ParticipantsDb.used_markAnswered, Bool.eq_iff_iff,
      isParticipantValid_iff]
    simp only [occupies_markAnswered]
    rw [← isParticipantValid_iff, h.used_eq, ParticipantsDb.isParticipantValid]
  first_eq := by
    intro j hj
    obtain ⟨client, hclient, hfirst⟩ := h.entry hj
    unfold ClientTable.firstAnsweredRound ClientTable.markAnswered ParticipantsDb.markAnswered
    dsimp only
    by_cases hij : i = j
    · subst hij
      rw [List.getElem?_modify_eq, hclient]
      cases sliceNo with
      | none => exact hfirst
      | some sn =>
        dsimp only [Option.map_eq_map, Option.map_some, Option.bind_some]
        rw [hfirst]
        by_cases hall : ((d.firstAnsweredRound i).all fun p => p.1 ≠ sn) = true
        · rw [if_pos hall, if_pos ⟨hj, hall⟩]
          dsimp only
          rw [Function.update_self]
        · rw [if_neg hall, if_neg fun hc => hall hc.2]
    · rw [List.getElem?_modify_ne _ _ hij, hclient]
      cases sliceNo with
      | none => exact hfirst
      | some sn =>
        dsimp only
        split
        · dsimp only
          rw [Function.update_of_ne (Ne.symm hij)]
          exact hfirst
        · exact hfirst

theorem Shows.removeParticipant (h : Shows t d) (i : ℕ) :
    Shows (t.removeParticipant i) (d.removeParticipant i) := by
  have hfirst : (d.removeParticipant i).firstAnsweredRound = d.firstAnsweredRound := by
    rw [ParticipantsDb.removeParticipant]
    split
    · rfl
    · rfl
  have hused : ∀ j, (t.removeParticipant i).isParticipantValid j =
      (d.removeParticipant i).isParticipantValid j := by
    intro j
    have hj := h.used_eq j
    rw [Bool.eq_iff_iff, isParticipantValid_iff, ParticipantsDb.isParticipantValid] at hj
    rw [Bool.eq_iff_iff, isParticipantValid_iff, ParticipantsDb.isParticipantValid,
      ParticipantsDb.used_removeParticipant, Bitmap.getLsbD_erase, Bool.and_eq_true, ← hj]
    simp only [occupies_removeParticipant, exists_and_left, Bool.not_eq_true',
      decide_eq_false_iff_not]
    exact and_comm
  obtain ⟨client, hi, huse, heq⟩ | ⟨hfree, heq⟩ := removeParticipant_cases t i
  · have hvalid : d.isParticipantValid i = true := by
      rw [← h.used_eq, isParticipantValid, hi]
      exact huse
    refine ⟨?_, ?_, hused, ?_⟩
    · rw [heq, ParticipantsDb.removeParticipant, dif_pos hvalid, h.nr_eq]
    · rw [heq, List.length_modify]
      exact h.length_eq
    · intro j hj
      rw [hfirst, ← h.first_eq j hj, heq]
      unfold ClientTable.firstAnsweredRound
      by_cases hij : i = j
      · subst hij
        rw [List.getElem?_modify_eq, hi]
        rfl
      · rw [List.getElem?_modify_ne _ _ hij]
  · have hvalid : ¬d.isParticipantValid i = true := by
      rw [← h.used_eq, isParticipantValid_iff]
      rintro ⟨_, client, hclient, huse, -⟩
      rw [hfree client hclient] at huse
      cases huse
    rw [heq, ParticipantsDb.removeParticipant, dif_neg hvalid]
    exact h

end ClientTable

end Udpcast
