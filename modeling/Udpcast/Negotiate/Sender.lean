import Udpcast.ClientTable
import Udpcast.Wire

/-!
# The negotiation of the sender (negotiate.rs)

A receiver that asks gets an entry of the table and a reply with its number.  Every round of the
dispatcher ends with a decision: to wait, to start the transfer or to give up.  Times are in
nanoseconds, and the process exits where a function returns `none`.
-/

namespace Udpcast.Negotiate

open Bytes SendData

/-! ### The configuration -/

def flagPointopoint : ℕ := 0x0008
def flagNopointopoint : ℕ := 0x0040

def capNewGen : BitVec 32 := 0x0001
def capFec : BitVec 32 := 0x0004
def capBigEndian : BitVec 32 := 0x0008
def capAsync : BitVec 32 := 0x0020
def capLateJoin : BitVec 32 := 0x0040

/-- `sender_capabilities` (senddata.rs:126-135), from `SENDER_CAPABILITIES`. -/
def senderCapabilities (c : NetConfig) : BitVec 32 :=
  let caps := capNewGen ||| capBigEndian
  let caps := if c.hasFlag flagFec then caps ||| capFec else caps
  if c.hasFlag flagAsync then caps ||| capAsync else caps

/-- `NetConfig` with the fields that the negotiation reads, and the address of the main socket. -/
structure StartConfig extends NetConfig where
  address : SocketAddrV4
  controlMcastAddr : SocketAddrV4
  dataMcastAddr : SocketAddrV4
  capabilities : BitVec 32
  rcvbuf : BitVec 32
  rexmitHelloInterval : ℤ
  autostart : ℤ
  minReceivers : ℤ
  minReceiversWait : ℤ
  maxReceiversWait : ℤ
  startTimeout : ℤ
  blockSize_lt : blockSize < 2 ^ 32

/-- A message on its way. -/
structure Packet where
  source : SocketAddrV4
  dest : SocketAddrV4
  message : Message

/-- `ip4_into_16` and `ip4_from_16` (protocol.rs:329-337). -/
def ip4Into16 (ip : BitVec 32) : List UInt8 := toBe 4 ip.toNat ++ List.replicate 12 0
def ip4From16 (b : List UInt8) : BitVec 32 := BitVec.ofNat 32 (ofBe (field b 0 4))

/-- `Duration::from_secs` of a positive `i32`. -/
def fromSecs (x : ℤ) : ℕ := x.toNat * 10 ^ 9

namespace StartConfig

variable (c : StartConfig)

def helloMessage (streaming : Bool) : Message :=
  sendHello c.toNetConfig c.capabilities.toNat (ip4Into16 c.dataMcastAddr.ip) streaming

/-- `send_hello`. -/
def hello (streaming : Bool) : Packet := ⟨c.address, c.controlMcastAddr, c.helloMessage streaming⟩

def replyMessage (clNr : ℤ) : ConnectReply :=
  ⟨clNr, asI32 c.blockSize, c.capabilities.toNat, ip4Into16 c.dataMcastAddr.ip⟩

def reply (client : SocketAddrV4) (clNr : ℤ) : Packet :=
  ⟨c.address, client, .connectReply (c.replyMessage clNr)⟩

end StartConfig

/-! ### The messages of receivers -/

/-- `send_connection_reply` (negotiate.rs:154-181). -/
def sendConnectionReply (c : StartConfig) (db : ClientTable) (client : SocketAddrV4)
    (capabilities rcvbuf : BitVec 32) : Option (ClientTable × Packet) :=
  let rcvbuf := if rcvbuf = 0 then 65536 else rcvbuf
  if capabilities &&& capBigEndian = 0 then none
  else
    let (db, clNr) := db.addParticipant client capabilities rcvbuf (c.hasFlag flagPointopoint)
    some (db, c.reply client clNr)

/-- `handle_receiver_msg` (negotiate.rs:367-401): the table, the replies, and whether the transfer
should start. -/
def handleReceiverMsg (c : StartConfig) (db : ClientTable) (source : SocketAddrV4)
    (buf : List UInt8) : Option (ClientTable × List Packet × Bool) :=
  match readNegotiation buf buf.length with
  | some (.connectReq req) => do
    let (db, reply) ← sendConnectionReply c db source
      (capBigEndian ||| BitVec.ofNat 32 req.capabilities) (BitVec.ofNat 32 req.rcvbuf)
    some (db, [reply], false)
  | some .go => some (db, [], true)
  | some .disconnect =>
    let i := db.lookupParticipant source
    some (if i ≥ 0 then db.removeParticipant i.toNat else db, [], false)
  | _ => some (db, [], false)

/-- The datagrams that the sockets hold (negotiate.rs:322-357), up to one that starts the transfer.
A datagram is cut to 256 bytes. -/
def drain (c : StartConfig) (db : ClientTable) :
    List (SocketAddrV4 × List UInt8) → Option (ClientTable × List Packet × Bool)
  | [] => some (db, [], false)
  | (source, buf) :: rest => do
    let (db, sent, go) ← handleReceiverMsg c db source (buf.take 256)
    if go then some (db, sent, true)
    else
      let (db, more, go) ← drain c db rest
      some (db, sent ++ more, go)

/-! ### The dispatcher -/

/-- The locals of the loop of `start_sender_with_socks`. -/
structure Negotiation where
  db : ClientTable
  helloTries : ℤ
  firstConnected : Option ℕ

/-- How `select` returns: with an error, with nothing, or with a key and the datagrams that are
there. -/
inductive Selected
  | failed
  | quiet
  | ready (key : Option UInt8) (datagrams : List (SocketAddrV4 × List UInt8))

/-- A round, with the times at which it begins and at which `select` returns. -/
structure Round where
  began : ℕ
  selected : Selected
  now : ℕ

/-- `DISPATCH_WAIT`, `DISPATCH_START` and `DISPATCH_GIVE_UP`. -/
inductive Decision
  | wait
  | start
  | giveUp
  deriving DecidableEq

/-- `check_client_wait` (negotiate.rs:198-222). -/
def checkClientWait (c : StartConfig) (x : Negotiation) (now : ℕ) : Bool :=
  match x.firstConnected with
  | none => false
  | some connected =>
    if x.db.nrParticipants = 0 then false
    else if 0 < c.maxReceiversWait ∧ fromSecs c.maxReceiversWait ≤ now - connected then true
    else if max c.minReceivers 0 ≤ x.db.nrParticipants then
      c.minReceiversWait ≤ 0 ∨ fromSecs c.minReceiversWait ≤ now - connected
    else false

/-- The time of the first round that finds a participant. -/
def Negotiation.noteConnected (x : Negotiation) (now : ℕ) : Negotiation :=
  if x.firstConnected = none ∧ x.db.nrParticipants > 0 then { x with firstConnected := some now }
  else x

/-- HELLOs are sent. -/
def StartConfig.asks (c : StartConfig) : Bool := 0 ≤ c.rexmitHelloInterval

def Negotiation.ask (c : StartConfig) (x : Negotiation) : Negotiation :=
  if c.asks then { x with helloTries := x.helloTries + 1 } else x

/-- The decision when nothing has arrived, after the HELLO (negotiate.rs:284-301). -/
def quietDecision (c : StartConfig) (loopStart : ℕ) (x : Negotiation) (now : ℕ) : Decision :=
  if c.asks ∧ c.autostart ≠ 0 ∧ x.helloTries > c.autostart then .start
  else if checkClientWait c x now then .start
  else if c.startTimeout > 0 ∧ fromSecs c.startTimeout ≤ now - loopStart then .giveUp
  else .wait

/-- `dispatch_round` (negotiate.rs:226-365). -/
def dispatchRound (c : StartConfig) (loopStart : ℕ) (x : Negotiation) (round : Round) :
    Option (Negotiation × List Packet × Decision) :=
  let x := x.noteConnected round.began
  match round.selected with
  | .failed => some (x, [], .wait)
  | .quiet =>
    some (x.ask c, if c.asks then [c.hello false] else [], quietDecision c loopStart (x.ask c) round.now)
  | .ready (some key) _ => if key = 'q'.toUInt8 then none else some (x, [], .start)
  | .ready none datagrams => do
    let (db, sent, go) ← drain c x.db datagrams
    let x := { x with db := db }
    some (x, sent, if go || checkClientWait c x round.now then .start else .wait)

/-! ### The transfer -/

/-- `is_point_to_point` (negotiate.rs:405-413). -/
def isPointToPoint (c : StartConfig) (db : ClientTable) : Bool :=
  if c.hasFlag flagPointopoint then true
  else if c.hasFlag flagNopointopoint || c.hasFlag flagAsync then false
  else db.nrParticipants = 1

/-- What `do_transfer` takes over from entry `i` (negotiate.rs:562-579). -/
def meet (p2p : Bool) (db : ClientTable) (c : StartConfig) (i : ℕ) : StartConfig :=
  match db.clientTable[i]? with
  | none => c
  | some client =>
    if client.used then
      { c with
        dataMcastAddr :=
          if p2p then ⟨client.addr.ip, c.dataMcastAddr.port⟩ else c.dataMcastAddr
        capabilities := c.capabilities &&& client.capabilities
        rcvbuf :=
          if client.rcvbuf ≠ 0 ∧ (c.rcvbuf = 0 ∨ c.rcvbuf > client.rcvbuf) then client.rcvbuf
          else c.rcvbuf }
    else c

/-- `do_transfer` (negotiate.rs:538-602) up to the transfer itself: its configuration. -/
def doTransfer (c : StartConfig) (db : ClientTable) : Option StartConfig :=
  let p2p := isPointToPoint c db
  if c.hasFlag flagPointopoint ∧ db.nrParticipants ≠ 1 then none
  else
    let c := (List.range maxClients).foldl (meet p2p db) { c with rcvbuf := 0 }
    if c.capabilities &&& capBigEndian = 0 then none else some c

/-- Where `start_sender_with_socks` is: in its loop, back without a transfer, or in the transfer. -/
inductive Sender
  | negotiating (x : Negotiation)
  | returned (db : ClientTable)
  | transferring (c : StartConfig) (db : ClientTable)

/-- What follows the decision of a round (negotiate.rs:497-536). -/
def conclude (c : StartConfig) (x : Negotiation) : Decision → Option Sender
  | .wait => some (.negotiating x)
  | .giveUp => some (.returned x.db)
  | .start =>
    if x.db.nrParticipants = 0 ∧ c.hasFlag flagAsync = false then some (.returned x.db)
    else (doTransfer c x.db).map fun c => .transferring c x.db

/-- The configuration from the start of `start_sender_with_socks` on. -/
def StartConfig.prepared (c : StartConfig) : StartConfig :=
  { c with capabilities := senderCapabilities c.toNetConfig }

/-- The table at the start. -/
def Negotiation.start : Negotiation := ⟨ClientTable.new, 0, none⟩

/-- A round of the loop of `start_sender_with_socks` (negotiate.rs:473-536). -/
def round (c : StartConfig) (loopStart : ℕ) : Sender → Round → Option (Sender × List Packet)
  | .negotiating x, r => do
    let (x, sent, decision) ← dispatchRound c loopStart x r
    let s ← conclude c x decision
    some (s, sent)
  | _, _ => none

/-! ### What a message does -/

variable {c : StartConfig} {db : ClientTable} {source : SocketAddrV4} {buf : List UInt8}

theorem capBigEndian_or (w : BitVec 32) : (capBigEndian ||| w) &&& capBigEndian ≠ 0 := by
  have habsorb : (capBigEndian ||| w) &&& capBigEndian = capBigEndian := by
    ext i hi
    simp only [BitVec.getElem_and, BitVec.getElem_or]
    cases capBigEndian[i] with
    | true => rfl
    | false => rw [Bool.and_false]
  rw [habsorb]
  decide

/-- A message does nothing to the table, adds its sender or removes it. -/
inductive Handled (c : StartConfig) (db : ClientTable) (source : SocketAddrV4) (buf : List UInt8) :
    ClientTable × List Packet × Bool → Prop
  | ignored (go : Bool) : Handled c db source buf (db, [], go)
  | joined (capabilities rcvbuf : BitVec 32) : capabilities &&& capBigEndian ≠ 0 → rcvbuf ≠ 0 →
      Handled c db source buf
        ((db.addParticipant source capabilities rcvbuf (c.hasFlag flagPointopoint)).1,
          [c.reply source
            (db.addParticipant source capabilities rcvbuf (c.hasFlag flagPointopoint)).2], false)
  | departed (i : ℕ) : db.Occupies i source → readNegotiation buf buf.length = some .disconnect →
      Handled c db source buf (db.removeParticipant i, [], false)

theorem sendConnectionReply_eq {capabilities : BitVec 32} (rcvbuf : BitVec 32)
    (h : capabilities &&& capBigEndian ≠ 0) : ∃ size ≠ 0,
      sendConnectionReply c db source capabilities rcvbuf =
        some ((db.addParticipant source capabilities size (c.hasFlag flagPointopoint)).1,
          c.reply source
            (db.addParticipant source capabilities size (c.hasFlag flagPointopoint)).2) := by
  unfold sendConnectionReply
  by_cases hzero : rcvbuf = 0
  · exact ⟨65536, by decide, by rw [if_neg h, if_pos hzero]⟩
  · exact ⟨rcvbuf, hzero, by rw [if_neg h, if_neg hzero]⟩

theorem handleReceiverMsg_handled (c : StartConfig) (db : ClientTable) (source : SocketAddrV4)
    (buf : List UInt8) : ∃ r, handleReceiverMsg c db source buf = some r ∧ Handled c db source buf r := by
  unfold handleReceiverMsg
  split
  · rename_i req _
    have hbig := capBigEndian_or (BitVec.ofNat 32 req.capabilities)
    obtain ⟨size, hsize, heq⟩ := sendConnectionReply_eq (BitVec.ofNat 32 req.rcvbuf) hbig
    exact ⟨_, by rw [heq]; rfl, Handled.joined _ size hbig hsize⟩
  · exact ⟨_, rfl, Handled.ignored true⟩
  · rename_i hread
    obtain ⟨i, hlook, hi⟩ | ⟨hlook, -⟩ := db.lookupParticipant_cases source
    · refine ⟨_, rfl, ?_⟩
      rw [hlook, if_pos (Int.natCast_nonneg i), Int.toNat_natCast]
      exact Handled.departed i hi hread
    · refine ⟨_, rfl, ?_⟩
      rw [hlook, if_neg (by decide)]
      exact Handled.ignored false
  · exact ⟨_, rfl, Handled.ignored false⟩

/-- What every message keeps, the messages that the sockets hold keep. -/
theorem drain_invariant {P : ClientTable → List Packet → Prop}
    {l : List (SocketAddrV4 × List UInt8)} {sent : List Packet} (hP : P db sent)
    (hstep : ∀ m ∈ l, ∀ db sent r, P db sent → Handled c db m.1 (m.2.take 256) r →
      P r.1 (sent ++ r.2.1)) : ∃ r, drain c db l = some r ∧ P r.1 (sent ++ r.2.1) := by
  induction l generalizing db sent with
  | nil => exact ⟨_, rfl, by rwa [List.append_nil]⟩
  | cons m l ih =>
    obtain ⟨source, buf⟩ := m
    obtain ⟨⟨db', more, go⟩, hr, hhandled⟩ := handleReceiverMsg_handled c db source (buf.take 256)
    have hP' : P db' (sent ++ more) := hstep _ List.mem_cons_self db sent _ hP hhandled
    rw [drain, hr]
    cases go with
    | true => exact ⟨_, rfl, hP'⟩
    | false =>
      obtain ⟨⟨db'', rest, go⟩, hdrain, hlast⟩ :=
        ih hP' fun m hm => hstep m (List.mem_cons_of_mem _ hm)
      refine ⟨(db'', more ++ rest, go), ?_, by rwa [← List.append_assoc]⟩
      show (drain c db' l).bind _ = _
      rw [hdrain]
      rfl

/-! ### What a round does -/

/-- The table at any time. -/
def Sender.table : Sender → ClientTable
  | .negotiating x => x.db
  | .returned db => db
  | .transferring _ db => db

@[simp] theorem Negotiation.db_noteConnected (x : Negotiation) (now : ℕ) :
    (x.noteConnected now).db = x.db := by
  unfold Negotiation.noteConnected
  split
  · rfl
  · rfl

variable {loopStart : ℕ} {x : Negotiation} {r : Round}

@[simp] theorem Negotiation.db_ask : (x.ask c).db = x.db := by
  unfold Negotiation.ask
  split
  · rfl
  · rfl

/-- The datagrams that a round takes from the sockets. -/
def Round.datagrams (r : Round) : List (SocketAddrV4 × List UInt8) :=
  match r.selected with
  | .ready none datagrams => datagrams
  | _ => []

/-- The key `q` is pressed. -/
def Round.cancels (r : Round) : Prop := ∃ datagrams, r.selected = .ready (some 'q'.toUInt8) datagrams

/-- What every message and every HELLO keep, a round of the dispatcher keeps, unless the transfer is
cancelled. -/
theorem dispatchRound_invariant {P : ClientTable → List Packet → Prop} {sent : List Packet}
    (hP : P x.db sent) (hcancel : ¬r.cancels)
    (hhello : ∀ db sent more, P db sent → (∀ p ∈ more, p = c.hello false) → P db (sent ++ more))
    (hstep : ∀ m ∈ r.datagrams, ∀ db sent r, P db sent → Handled c db m.1 (m.2.take 256) r →
      P r.1 (sent ++ r.2.1)) :
    ∃ x' more decision, dispatchRound c loopStart x r = some (x', more, decision) ∧
      P x'.db (sent ++ more) := by
  have hnote : P (x.noteConnected r.began).db sent := by rwa [x.db_noteConnected]
  unfold dispatchRound
  cases hsel : r.selected with
  | failed => exact ⟨_, [], _, rfl, by rwa [List.append_nil]⟩
  | quiet =>
    refine ⟨_, _, _, rfl, ?_⟩
    rw [Negotiation.db_ask]
    apply hhello _ _ _ hnote
    split
    · intro p hp
      exact List.mem_singleton.mp hp
    · intro p hp
      cases hp
  | ready key datagrams =>
    cases key with
    | some key =>
      have hkey : key ≠ 'q'.toUInt8 := by
        rintro rfl
        exact hcancel ⟨datagrams, hsel⟩
      dsimp only
      rw [if_neg hkey]
      exact ⟨_, [], _, rfl, by rwa [List.append_nil]⟩
    | none =>
      have hdatagrams : r.datagrams = datagrams := by rw [Round.datagrams, hsel]
      rw [hdatagrams] at hstep
      obtain ⟨⟨db, more, go⟩, hdrain, hlast⟩ := drain_invariant hnote hstep
      dsimp only
      rw [hdrain]
      exact ⟨_, _, _, rfl, hlast⟩

end Udpcast.Negotiate
