import Udpcast.Negotiate.Sender
import Udpcast.Lib.Run

/-!
# The start of the transfer

The participants with whom the sender starts, and what it takes over from them.
-/

namespace Udpcast.Negotiate

open SendData ClientTable

/-! ### The participants -/

/-- The entries below `n` that are in use. -/
def Joined (db : ClientTable) (n : ℕ) (client : ClientDesc) : Prop :=
  ∃ i < n, db.clientTable[i]? = some client ∧ client.used = true

/-- The table of a negotiation: every participant can be sent to, and a point-to-point transfer has
no more than one. -/
structure Registered (c : StartConfig) (db : ClientTable) : Prop where
  valid : db.Valid
  length : db.clientTable.length = maxClients
  fits : ∀ (i : ℕ) (client : ClientDesc), db.clientTable[i]? = some client → client.used = true →
    client.capabilities &&& capBigEndian ≠ 0 ∧ client.rcvbuf ≠ 0
  single : c.hasFlag flagPointopoint = true → ∀ i addr, db.Occupies i addr → i = 0

variable {c : StartConfig} {db : ClientTable} {source : SocketAddrV4} {buf : List UInt8}

theorem registered_new (c : StartConfig) : Registered c ClientTable.new where
  valid := Valid.new
  length := List.length_replicate
  fits _ client hi hused := absurd ⟨client, hi, hused, rfl⟩ new_occupies
  single _ _ _ hi := absurd hi new_occupies

theorem Registered.addParticipant (h : Registered c db) {capabilities rcvbuf : BitVec 32}
    (hcap : capabilities &&& capBigEndian ≠ 0) (hbuf : rcvbuf ≠ 0) :
    Registered c
      (db.addParticipant source capabilities rcvbuf (c.hasFlag flagPointopoint)).1 := by
  have hvalid := h.valid.addParticipant source capabilities rcvbuf (c.hasFlag flagPointopoint)
  have hlength := length_call db
    (.addParticipant source capabilities rcvbuf (c.hasFlag flagPointopoint))
  obtain ⟨_, -, heq⟩ | ⟨k, -, hfree, heq⟩ | heq :=
    addParticipant_cases db source capabilities rcvbuf (c.hasFlag flagPointopoint)
  · rw [heq]
    exact h
  · rw [ClientTable.call, heq] at hlength
    rw [heq] at hvalid ⊢
    obtain ⟨hentry, hzero⟩ := freeEntry_eq_some hfree
    refine ⟨hvalid, hlength.trans h.length, fun i client hi hused => ?_, fun hp i addr hi => ?_⟩
    · obtain ⟨-, old, -, rfl⟩ | ⟨-, hi⟩ := modify_eq_some.mp hi
      · exact ⟨hcap, hbuf⟩
      · exact h.fits i client hi hused
    · obtain ⟨rfl, -⟩ | hi := (occupies_modify hentry).mp hi
      · exact hzero hp
      · exact h.single hp i addr hi
  · rw [heq]
    exact h

theorem Registered.removeParticipant (h : Registered c db) (i : ℕ) :
    Registered c (db.removeParticipant i) where
  valid := h.valid.removeParticipant i
  length := (length_call db (.removeParticipant i)).trans h.length
  fits := by
    intro j client hj hused
    obtain ⟨-, -, -, heq⟩ | ⟨-, heq⟩ := removeParticipant_cases db i
    · rw [heq] at hj
      obtain ⟨-, old, -, rfl⟩ | ⟨-, hj⟩ := modify_eq_some.mp hj
      · cases hused
      · exact h.fits j client hj hused
    · rw [heq] at hj
      exact h.fits j client hj hused
  single hp j addr hj := h.single hp j addr (occupies_removeParticipant.mp hj).2

theorem Registered.handled {r : ClientTable × List Packet × Bool} (h : Registered c db)
    (hr : Handled c db source buf r) : Registered c r.1 := by
  cases hr with
  | ignored go => exact h
  | joined capabilities rcvbuf hcap hbuf => exact h.addParticipant hcap hbuf
  | departed i _ _ => exact h.removeParticipant i

theorem Registered.nrParticipants_pos (h : Registered c db) :
    0 < db.nrParticipants ↔ ∃ client, Joined db maxClients client := by
  rw [h.valid.nr_eq, List.countP_pos_iff]
  constructor
  · rintro ⟨client, hmem, hused⟩
    obtain ⟨i, hi⟩ := List.mem_iff_getElem?.mp hmem
    obtain ⟨hlt, -⟩ := List.getElem?_eq_some_iff.mp hi
    rw [h.length] at hlt
    exact ⟨client, i, hlt, hi, hused⟩
  · rintro ⟨client, i, -, hi, hused⟩
    exact ⟨client, List.mem_of_getElem? hi, hused⟩

/-! ### What the transfer takes over -/

/-- The configuration after the first `n` turns of the loop of `do_transfer`. -/
structure Met (p2p : Bool) (db : ClientTable) (c : StartConfig) (n : ℕ) (c' : StartConfig) :
    Prop where
  frame : c' = { c with
    dataMcastAddr := c'.dataMcastAddr, capabilities := c'.capabilities, rcvbuf := c'.rcvbuf }
  capabilities : ∀ b, c'.capabilities.getLsbD b = true ↔ c.capabilities.getLsbD b = true ∧
    ∀ client, Joined db n client → client.capabilities.getLsbD b = true
  rcvbuf_le : ∀ client, Joined db n client → client.rcvbuf ≠ 0 →
    c'.rcvbuf ≠ 0 ∧ c'.rcvbuf.toNat ≤ client.rcvbuf.toNat
  rcvbuf_mem : c'.rcvbuf = 0 ∨ ∃ client, Joined db n client ∧ c'.rcvbuf = client.rcvbuf
  port : c'.dataMcastAddr.port = c.dataMcastAddr.port
  group : p2p = false → c'.dataMcastAddr = c.dataMcastAddr
  unicast : p2p = true → (∃ client, Joined db n client) →
    ∃ client, Joined db n client ∧ c'.dataMcastAddr.ip = client.addr.ip

theorem joined_succ {n : ℕ} {client : ClientDesc} : Joined db (n + 1) client ↔
    Joined db n client ∨ db.clientTable[n]? = some client ∧ client.used = true := by
  constructor
  · rintro ⟨i, hi, hclient⟩
    rcases Nat.lt_succ_iff_lt_or_eq.mp hi with hlt | rfl
    · exact Or.inl ⟨i, hlt, hclient⟩
    · exact Or.inr hclient
  · rintro (⟨i, hi, hclient⟩ | hclient)
    · exact ⟨i, Nat.lt_succ_of_lt hi, hclient⟩
    · exact ⟨n, n.lt_succ_self, hclient⟩

theorem Met.skip {p2p : Bool} {c₀ : StartConfig} {n : ℕ} (h : Met p2p db c₀ n c)
    (hskip : ∀ client, db.clientTable[n]? = some client → client.used = false) :
    Met p2p db c₀ (n + 1) c := by
  have hsame : ∀ client, Joined db (n + 1) client ↔ Joined db n client := by
    intro client
    rw [joined_succ, or_iff_left]
    rintro ⟨hn, hused⟩
    rw [hskip client hn] at hused
    cases hused
  constructor
  · exact h.frame
  · simpa only [hsame] using h.capabilities
  · simpa only [hsame] using h.rcvbuf_le
  · simpa only [hsame] using h.rcvbuf_mem
  · exact h.port
  · exact h.group
  · simpa only [hsame] using h.unicast

theorem Met.take {p2p : Bool} {c₀ : StartConfig} {n : ℕ} {client : ClientDesc}
    (h : Met p2p db c₀ n c) (hn : db.clientTable[n]? = some client) (hused : client.used = true) :
    Met p2p db c₀ (n + 1) (meet p2p db c n) := by
  have hmeet : meet p2p db c n = { c with
      dataMcastAddr := if p2p then ⟨client.addr.ip, c.dataMcastAddr.port⟩ else c.dataMcastAddr
      capabilities := c.capabilities &&& client.capabilities
      rcvbuf := if client.rcvbuf ≠ 0 ∧ (c.rcvbuf = 0 ∨ c.rcvbuf > client.rcvbuf) then client.rcvbuf
        else c.rcvbuf } := by
    rw [meet, hn]
    exact if_pos hused
  have hjoined : Joined db (n + 1) client := joined_succ.mpr (Or.inr ⟨hn, hused⟩)
  have hiff : ∀ other, Joined db (n + 1) other ↔ Joined db n other ∨ other = client := by
    intro other
    rw [joined_succ, hn, Option.some_inj]
    constructor
    · rintro (hother | ⟨rfl, -⟩)
      · exact Or.inl hother
      · exact Or.inr rfl
    · rintro (hother | rfl)
      · exact Or.inl hother
      · exact Or.inr ⟨rfl, hused⟩
  rw [hmeet]
  constructor
  · rw [h.frame]
  · intro b
    dsimp only
    rw [BitVec.getLsbD_and, Bool.and_eq_true, h.capabilities]
    simp only [hiff]
    constructor
    · rintro ⟨⟨hc, hall⟩, hb⟩
      refine ⟨hc, ?_⟩
      rintro other (hother | rfl)
      · exact hall other hother
      · exact hb
    · rintro ⟨hc, hall⟩
      exact ⟨⟨hc, fun other hother => hall other (Or.inl hother)⟩, hall client (Or.inr rfl)⟩
  · intro other hother hne
    dsimp only
    rcases (hiff other).mp hother with hother | rfl
    · obtain ⟨hpos, hle⟩ := h.rcvbuf_le other hother hne
      split
      · rename_i hsmaller
        have hlt : client.rcvbuf.toNat < c.rcvbuf.toNat := hsmaller.2.resolve_left hpos
        exact ⟨hsmaller.1, hlt.le.trans hle⟩
      · exact ⟨hpos, hle⟩
    · split
      · exact ⟨hne, le_rfl⟩
      · rename_i hlarger
        rw [not_and, not_or] at hlarger
        obtain ⟨hpos, hnot⟩ := hlarger hne
        exact ⟨hpos, Nat.le_of_not_lt hnot⟩
  · dsimp only
    split
    · exact Or.inr ⟨client, hjoined, rfl⟩
    · rcases h.rcvbuf_mem with hzero | ⟨other, hother, heq⟩
      · exact Or.inl hzero
      · exact Or.inr ⟨other, (hiff other).mpr (Or.inl hother), heq⟩
  · cases p2p with
    | true => exact h.port
    | false => exact h.port
  · rintro rfl
    exact h.group rfl
  · rintro rfl -
    exact ⟨client, hjoined, rfl⟩

/-- By induction on the entries that `do_transfer` has looked at. -/
theorem met_foldl (p2p : Bool) (db : ClientTable) (c : StartConfig) (n : ℕ) :
    Met p2p db { c with rcvbuf := 0 } n
      ((List.range n).foldl (meet p2p db) { c with rcvbuf := 0 }) := by
  induction n with
  | zero =>
    have hnone : ∀ client, ¬Joined db 0 client := fun client ⟨_, hi, _⟩ => Nat.not_lt_zero _ hi
    refine ⟨rfl, fun b => ?_, fun client hclient => absurd hclient (hnone client), Or.inl rfl, rfl,
      fun _ => rfl, fun _ ⟨client, hclient⟩ => absurd hclient (hnone client)⟩
    exact (and_iff_left fun client hclient => absurd hclient (hnone client)).symm
  | succ n ih =>
    rw [List.range_succ, List.foldl_append]
    generalize (List.range n).foldl (meet p2p db) { c with rcvbuf := 0 } = c' at ih
    show Met p2p db _ (n + 1) (meet p2p db c' n)
    cases hn : db.clientTable[n]? with
    | none =>
      have hmeet : meet p2p db c' n = c' := by rw [meet, hn]
      rw [hmeet]
      apply ih.skip
      intro client hclient
      rw [hn] at hclient
      cases hclient
    | some client =>
      cases hused : client.used with
      | true => exact ih.take hn hused
      | false =>
        have hmeet : meet p2p db c' n = c' := by
          rw [meet, hn]
          exact if_neg (Bool.not_eq_true _ ▸ hused)
        rw [hmeet]
        apply ih.skip
        intro other hother
        rw [hn] at hother
        obtain rfl := Option.some.inj hother
        exact hused

/-- A transfer starts with a participant, or asynchronously; it uses what all participants can do,
the smallest of their buffers, and in a point-to-point transfer the address of the only one. -/
structure Starts (c c' : StartConfig) (db : ClientTable) : Prop where
  participants : 0 < db.nrParticipants ∨ c.hasFlag flagAsync = true
  single : isPointToPoint c db = true → db.nrParticipants = 1
  frame : c' = { c with
    dataMcastAddr := c'.dataMcastAddr, capabilities := c'.capabilities, rcvbuf := c'.rcvbuf }
  capabilities : ∀ b, c'.capabilities.getLsbD b = true ↔ c.capabilities.getLsbD b = true ∧
    ∀ client, Joined db maxClients client → client.capabilities.getLsbD b = true
  bigEndian : c'.capabilities &&& capBigEndian ≠ 0
  rcvbuf_le : ∀ client, Joined db maxClients client →
    c'.rcvbuf ≠ 0 ∧ c'.rcvbuf.toNat ≤ client.rcvbuf.toNat
  rcvbuf_mem : 0 < db.nrParticipants →
    ∃ client, Joined db maxClients client ∧ c'.rcvbuf = client.rcvbuf
  group : isPointToPoint c db = false → c'.dataMcastAddr = c.dataMcastAddr
  unicast : isPointToPoint c db = true → ∀ client, Joined db maxClients client →
    c'.dataMcastAddr = ⟨client.addr.ip, c.dataMcastAddr.port⟩

theorem and_capBigEndian (w : BitVec 32) : w &&& capBigEndian ≠ 0 ↔ w.getLsbD 3 = true := by
  have hmask : capBigEndian = BitVec.twoPow 32 3 := by decide
  rw [hmask, BitVec.and_twoPow]
  cases w.getLsbD 3 with
  | true => exact iff_of_true (by decide) rfl
  | false => exact iff_of_false (fun h => h rfl) Bool.false_ne_true

theorem Registered.single_client (h : Registered c db) (hone : db.nrParticipants = 1)
    {client other : ClientDesc} (hclient : Joined db maxClients client)
    (hother : Joined db maxClients other) : client = other := by
  rw [h.valid.nr_eq, List.countP_eq_length_filter, List.length_eq_one_iff] at hone
  obtain ⟨only, honly⟩ := hone
  have hmem : ∀ {desc}, Joined db maxClients desc → desc = only := by
    rintro desc ⟨i, -, hi, hused⟩
    have hin : desc ∈ db.clientTable.filter ClientDesc.used :=
      List.mem_filter.mpr ⟨List.mem_of_getElem? hi, hused⟩
    rw [honly] at hin
    exact List.mem_singleton.mp hin
  exact (hmem hclient).trans (hmem hother).symm

theorem isPointToPoint_single (hp : isPointToPoint c db = true)
    (hflag : ¬(c.hasFlag flagPointopoint = true ∧ db.nrParticipants ≠ 1)) :
    db.nrParticipants = 1 := by
  unfold isPointToPoint at hp
  split at hp
  · rename_i hexplicit
    by_contra hne
    exact hflag ⟨hexplicit, hne⟩
  · split at hp
    · cases hp
    · exact of_decide_eq_true hp

/-- The transfer never fails for the byte order of a participant. -/
theorem doTransfer_starts (h : Registered c db)
    (hflag : ¬(c.hasFlag flagPointopoint = true ∧ db.nrParticipants ≠ 1))
    (hsome : 0 < db.nrParticipants ∨ c.hasFlag flagAsync = true)
    (hbig : c.capabilities &&& capBigEndian ≠ 0) :
    ∃ c', doTransfer c db = some c' ∧ Starts c c' db := by
  have hmet := met_foldl (isPointToPoint c db) db c maxClients
  have hsingle : isPointToPoint c db = true → db.nrParticipants = 1 :=
    fun hp => isPointToPoint_single hp hflag
  rw [doTransfer, if_neg hflag]
  generalize (List.range maxClients).foldl (meet (isPointToPoint c db) db)
    { c with rcvbuf := 0 } = c' at hmet
  have hend : c'.capabilities &&& capBigEndian ≠ 0 := by
    rw [and_capBigEndian, hmet.capabilities]
    refine ⟨(and_capBigEndian _).mp hbig, ?_⟩
    rintro client ⟨i, -, hi, hused⟩
    exact (and_capBigEndian _).mp (h.fits i client hi hused).1
  have hbuf : ∀ client, Joined db maxClients client →
      c'.rcvbuf ≠ 0 ∧ c'.rcvbuf.toNat ≤ client.rcvbuf.toNat := by
    rintro client ⟨i, hlt, hi, hused⟩
    exact hmet.rcvbuf_le client ⟨i, hlt, hi, hused⟩ (h.fits i client hi hused).2
  refine ⟨c', if_neg hend, hsome, hsingle, ?_, hmet.capabilities, hend, hbuf, fun hpos => ?_,
    hmet.group, fun hp client hclient => ?_⟩
  · rw [hmet.frame]
  · obtain ⟨client, hclient⟩ := h.nrParticipants_pos.mp hpos
    exact hmet.rcvbuf_mem.resolve_left (hbuf client hclient).1
  · obtain ⟨other, hother, hip⟩ := hmet.unicast hp ⟨client, hclient⟩
    obtain rfl := h.single_client (hsingle hp) hclient hother
    have hport := hmet.port
    rw [← hip, ← hport]

/-! ### The run of the negotiation -/

/-- A round, without what it sends. -/
def startStep (c : StartConfig) (loopStart : ℕ) (s : Sender) (r : Round) : Option Sender :=
  (round c loopStart s r).map Prod.fst

/-- What holds in the loop and after it. -/
def Sound (c : StartConfig) : Sender → Prop
  | .negotiating x => Registered c x.db
  | .returned db => c.startTimeout > 0 ∨ db.nrParticipants = 0 ∧ c.hasFlag flagAsync = false
  | .transferring c' db => Starts c c' db

theorem Registered.nrParticipants_le (h : Registered c db)
    (hp : c.hasFlag flagPointopoint = true) : db.nrParticipants ≤ 1 := by
  have hsingle := h.single hp
  rw [h.valid.nr_eq]
  cases hl : db.clientTable with
  | nil => exact Nat.zero_le 1
  | cons first rest =>
    have hrest : rest.countP ClientDesc.used = 0 := by
      rw [List.countP_eq_zero]
      intro client hmem hused
      obtain ⟨i, hi⟩ := List.mem_iff_getElem?.mp hmem
      have hzero := hsingle (i + 1) client.addr ⟨client, by rw [hl]; exact hi, hused, rfl⟩
      exact Nat.succ_ne_zero i hzero
    rw [List.countP_cons, hrest]
    split
    · exact le_rfl
    · exact Nat.zero_le 1

variable {loopStart : ℕ} {x x' : Negotiation} {r : Round} {sent : List Packet}
  {decision : Decision}

theorem quietDecision_giveUp {now : ℕ} (h : quietDecision c loopStart x now = .giveUp) :
    c.startTimeout > 0 := by
  unfold quietDecision at h
  split at h
  · cases h
  · split at h
    · cases h
    · split at h
      · rename_i htimeout
        exact htimeout.1
      · cases h

theorem dispatchRound_giveUp (h : dispatchRound c loopStart x r = some (x', sent, .giveUp)) :
    c.startTimeout > 0 := by
  unfold dispatchRound at h
  cases hsel : r.selected with
  | failed =>
    rw [hsel] at h
    cases h
  | quiet =>
    rw [hsel] at h
    obtain ⟨-, -, hdecision⟩ := by simpa using h
    exact quietDecision_giveUp hdecision
  | ready key datagrams =>
    rw [hsel] at h
    cases key with
    | some key =>
      dsimp only at h
      split at h
      · cases h
      · cases h
    | none =>
      obtain ⟨⟨db, more, go⟩, -, heq⟩ := Option.bind_eq_some_iff.mp h
      obtain ⟨-, -, hdecision⟩ := by simpa using heq
      split at hdecision
      · cases hdecision
      · cases hdecision

theorem dispatchRound_registered (h : Registered c x.db) (hcancel : ¬r.cancels) :
    ∃ x' sent decision, dispatchRound c loopStart x r = some (x', sent, decision) ∧
      Registered c x'.db := by
  apply dispatchRound_invariant (P := fun db _ => Registered c db) h hcancel
  · intro db sent more hdb _
    exact hdb
  · intro m _ db sent r hdb hr
    exact hdb.handled hr
  · exact []

theorem conclude_sound (h : Registered c x.db) (hbig : c.capabilities &&& capBigEndian ≠ 0)
    (hgive : decision = .giveUp → c.startTimeout > 0) :
    (conclude c x decision = none ∧ decision = .start ∧ c.hasFlag flagPointopoint = true ∧
      c.hasFlag flagAsync = true ∧ x.db.nrParticipants = 0) ∨
    ∃ s, conclude c x decision = some s ∧ Sound c s := by
  cases decision with
  | wait => exact Or.inr ⟨_, rfl, h⟩
  | giveUp => exact Or.inr ⟨_, rfl, Or.inl (hgive rfl)⟩
  | start =>
    unfold conclude
    by_cases hnone : x.db.nrParticipants = 0 ∧ c.hasFlag flagAsync = false
    · rw [if_pos hnone]
      exact Or.inr ⟨_, rfl, Or.inr hnone⟩
    · rw [if_neg hnone]
      rw [not_and, Bool.not_eq_false] at hnone
      by_cases hflag : c.hasFlag flagPointopoint = true ∧ x.db.nrParticipants ≠ 1
      · -- there cannot be more than one, so there is none
        have hle := h.nrParticipants_le hflag.1
        have hzero : x.db.nrParticipants = 0 := by
          have hne := hflag.2
          omega
        left
        refine ⟨?_, rfl, hflag.1, hnone hzero, hzero⟩
        rw [doTransfer, if_pos hflag]
        rfl
      · have hsome : 0 < x.db.nrParticipants ∨ c.hasFlag flagAsync = true := by
          rcases Nat.eq_zero_or_pos x.db.nrParticipants with hzero | hpos
          · exact Or.inr (hnone hzero)
          · exact Or.inl hpos
        obtain ⟨c', htransfer, hstarts⟩ := doTransfer_starts h hflag hsome hbig
        rw [htransfer]
        exact Or.inr ⟨_, rfl, hstarts⟩

theorem senderCapabilities_and (c : NetConfig) {capability : BitVec 32}
    (h : (capNewGen ||| capBigEndian) &&& capability ≠ 0) :
    senderCapabilities c &&& capability ≠ 0 := by
  have hmore : ∃ more, senderCapabilities c = (capNewGen ||| capBigEndian) ||| more := by
    unfold senderCapabilities
    split
    · split
      · exact ⟨capFec ||| capAsync, BitVec.or_assoc ..⟩
      · exact ⟨capFec, rfl⟩
    · split
      · exact ⟨capAsync, rfl⟩
      · exact ⟨0, BitVec.or_zero.symm⟩
  obtain ⟨more, hmore⟩ := hmore
  rw [hmore, BitVec.and_or_distrib_right]
  exact fun hzero => h (BitVec.or_eq_zero_iff.mp hzero).1

theorem senderCapabilities_bigEndian (c : NetConfig) : senderCapabilities c &&& capBigEndian ≠ 0 :=
  senderCapabilities_and c (by decide)

theorem round_eq (h : dispatchRound c loopStart x r = some (x', sent, decision)) :
    round c loopStart (.negotiating x) r = (conclude c x' decision).map fun s => (s, sent) := by
  rw [round, h, Option.map_eq_bind]
  rfl

theorem startStep_eq (h : dispatchRound c loopStart x r = some (x', sent, decision)) :
    startStep c loopStart (.negotiating x) r = conclude c x' decision := by
  rw [startStep, round_eq h, Option.map_map]
  exact Option.map_id'

theorem Sound.step {s s' : Sender} (h : Sound c s) (hbig : c.capabilities &&& capBigEndian ≠ 0)
    (hs : startStep c loopStart s r = some s') : Sound c s' := by
  cases s with
  | negotiating x =>
    have hcancel : ¬r.cancels := by
      rintro ⟨datagrams, hsel⟩
      rw [startStep, round, dispatchRound, hsel] at hs
      cases hs
    obtain ⟨x', sent, decision, hdispatch, hx'⟩ := dispatchRound_registered h hcancel
    have hgive : decision = .giveUp → c.startTimeout > 0 := by
      rintro rfl
      exact dispatchRound_giveUp hdispatch
    rw [startStep_eq hdispatch] at hs
    obtain ⟨hnone, -⟩ | ⟨s₂, hs₂, hsound⟩ := conclude_sound hx' hbig hgive
    · rw [hnone] at hs
      cases hs
    · rw [hs₂] at hs
      obtain rfl := Option.some.inj hs
      exact hsound
  | returned db => cases hs
  | transferring c' db => cases hs

/-- Every negotiation.  A transfer starts only with a participant or asynchronously, with what its
participants agree on; without one the sender returns for its timeout or for want of participants;
and the process exits only when it is cancelled, or asked to start a point-to-point transfer that is
asynchronous with nobody there. -/
theorem startSender_outcome (c : StartConfig) (loopStart : ℕ) (s : Sender)
    (hrun : Run.Reach (startStep c.prepared loopStart) (fun _ _ => True) (.negotiating .start) s) :
    (∀ c' db, s = .transferring c' db → Starts c.prepared c' db) ∧
    (∀ db, s = .returned db →
      c.startTimeout > 0 ∨ db.nrParticipants = 0 ∧ c.hasFlag flagAsync = false) ∧
    ∀ x r, s = .negotiating x → (startStep c.prepared loopStart s r = none ↔ r.cancels ∨
      c.hasFlag flagPointopoint = true ∧ c.hasFlag flagAsync = true ∧ ∃ x' sent,
        dispatchRound c.prepared loopStart x r = some (x', sent, .start) ∧
          x'.db.nrParticipants = 0) := by
  have hbig := senderCapabilities_bigEndian c.toNetConfig
  have h : Sound c.prepared s := hrun.invariant (I := Sound c.prepared) (registered_new _)
    fun s r s' hs _ hstep => hs.step hbig hstep
  refine ⟨?_, ?_, ?_⟩
  · rintro c' db rfl
    exact h
  · rintro db rfl
    exact h
  · rintro x r rfl
    by_cases hcancel : r.cancels
    · obtain ⟨datagrams, hsel⟩ := hcancel
      refine iff_of_true ?_ (Or.inl ⟨datagrams, hsel⟩)
      rw [startStep, round, dispatchRound, hsel]
      rfl
    · obtain ⟨x', sent, decision, hdispatch, hx'⟩ :=
        dispatchRound_registered h hcancel
      have hgive : decision = .giveUp → c.prepared.startTimeout > 0 := by
        rintro rfl
        exact dispatchRound_giveUp hdispatch
      rw [startStep_eq hdispatch, or_iff_right hcancel]
      constructor
      · intro hnone
        obtain ⟨-, rfl, hp, hasync, hzero⟩ | ⟨s, hs, -⟩ := conclude_sound hx' hbig hgive
        · exact ⟨hp, hasync, x', sent, hdispatch, hzero⟩
        · rw [hs] at hnone
          cases hnone
      · rintro ⟨hp, hasync, x'', sent', hdispatch', hzero⟩
        rw [hdispatch] at hdispatch'
        obtain ⟨rfl, -, rfl⟩ := by simpa using hdispatch'
        have hasync' : c.prepared.hasFlag flagAsync = true := hasync
        have hflag : c.prepared.hasFlag flagPointopoint = true ∧ x'.db.nrParticipants ≠ 1 :=
          ⟨hp, by omega⟩
        have hstart : ¬(x'.db.nrParticipants = 0 ∧ c.prepared.hasFlag flagAsync = false) := by
          rw [hasync']
          rintro ⟨-, hfalse⟩
          cases hfalse
        rw [conclude, if_neg hstart, doTransfer, if_pos hflag]
        rfl

def oneSender : StartConfig where
  blockSize := 1456
  sliceSize := 16
  flags := 0
  defaultSliceSize := 0
  maxSliceSize := 1024
  retriesUntilDrop := 200
  discovery := .doubling
  fecStripes := 0
  fecRedundancy := 0
  fecStripesize := 0
  blockSize_pos := by decide
  address := ⟨0x0a000001, 9001⟩
  controlMcastAddr := ⟨0x0a0000ff, 9000⟩
  dataMcastAddr := ⟨0xe8000001, 9000⟩
  capabilities := 0
  rcvbuf := 0
  rexmitHelloInterval := 0
  autostart := 0
  minReceivers := 0
  minReceiversWait := 0
  maxReceiversWait := 0
  startTimeout := 0
  blockSize_lt := by decide

/-- A receiver asks, and a second later the transfer starts. -/
def requestRound : Round :=
  ⟨0, .ready none [(⟨0x0a000002, 9000⟩, ConnectReq.pack ⟨73, 4096⟩)], 5⟩
def startRound : Round := ⟨5, .quiet, 1000000005⟩

/-- One participant has joined in the last round. -/
def Sender.joinedOne : Sender → Bool
  | .negotiating x => x.db.nrParticipants = 1 ∧ x.firstConnected = none
  | _ => false

theorem startRound_starts (hone : x.db.nrParticipants = 1) (hfirst : x.firstConnected = none) :
    ∃ x' sent, dispatchRound oneSender.prepared 0 x startRound = some (x', sent, .start) ∧
      x'.db = x.db := by
  have hnote : x.noteConnected 5 = { x with firstConnected := some 5 } := by
    apply if_pos
    rw [hone]
    exact ⟨hfirst, Nat.one_pos⟩
  have hwait : checkClientWait oneSender.prepared ((x.noteConnected 5).ask oneSender.prepared)
      1000000005 = true := by
    rw [hnote]
    unfold checkClientWait
    show (if x.db.nrParticipants = 0 then false else if _ then true else _) = true
    rw [hone]
    rfl
  have hdecision : quietDecision oneSender.prepared 0
      ((x.noteConnected 5).ask oneSender.prepared) 1000000005 = .start := by
    unfold quietDecision
    rw [if_neg (fun h => h.2.1 rfl), if_pos hwait]
  refine ⟨(x.noteConnected 5).ask oneSender.prepared, [oneSender.prepared.hello false], ?_, ?_⟩
  · show some (_, _, quietDecision oneSender.prepared 0
      ((x.noteConnected 5).ask oneSender.prepared) 1000000005) = _
    rw [hdecision]
    rfl
  · rw [Negotiation.db_ask, Negotiation.db_noteConnected]

theorem startSender_outcome_oneRequest :
    ∃ c' db, Starts oneSender.prepared c' db ∧ db.nrParticipants = 1 := by
  have hexec : (Run.exec (startStep oneSender.prepared 0) (fun _ _ => True) (.negotiating .start)
      [requestRound]).map Sender.joinedOne = some true := by
    decide +kernel
  obtain ⟨s, hreach, hs⟩ := Run.exists_reach_of_exec hexec
  cases s with
  | negotiating x =>
    obtain ⟨hone, hfirst⟩ := of_decide_eq_true hs
    have hregistered : Registered oneSender.prepared x.db :=
      hreach.invariant (I := Sound oneSender.prepared) (registered_new _)
        fun s r s' hs _ hstep => hs.step (senderCapabilities_bigEndian _) hstep
    obtain ⟨x', sent, hdispatch, hdb⟩ := startRound_starts hone hfirst
    have hone' : x'.db.nrParticipants = 1 := by rw [hdb, hone]
    have hflag : ¬(oneSender.prepared.hasFlag flagPointopoint = true ∧ x'.db.nrParticipants ≠ 1) :=
      fun h => h.2 hone'
    obtain ⟨c', htransfer, -⟩ := doTransfer_starts (hdb ▸ hregistered) hflag (Or.inl (by omega))
      (senderCapabilities_bigEndian _)
    have hstep : startStep oneSender.prepared 0 (.negotiating x) startRound =
        some (.transferring c' x'.db) := by
      rw [startStep_eq hdispatch, conclude, if_neg (fun h => by omega), htransfer]
      rfl
    exact ⟨c', x'.db, (startSender_outcome oneSender 0 _ (hreach.next startRound trivial hstep)).1
      c' x'.db rfl, hone'⟩
  | returned db => cases hs
  | transferring c' db => cases hs

end Udpcast.Negotiate
