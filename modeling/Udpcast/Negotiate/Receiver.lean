import Udpcast.Negotiate.Sender

/-!
# The negotiation of the receiver (receiver.rs:245-612)

The receiver asks for a number until a reply arrives, answers every HELLO with another request, and
notes the slices of a transfer that it overhears in the meantime.
-/

namespace Udpcast.Negotiate

open Bytes SendData

def flagPassive : ℕ := 0x0010
def flagStreaming : ℕ := 0x0100

/-- `RECEIVER_CAPABILITIES`. -/
def receiverCapabilities : BitVec 32 := capNewGen ||| capBigEndian ||| capLateJoin

/-- What stays the same in the loop of `start_receiver`: its address, the address that reaches the
senders, the ports, the size of the receive buffer and the timeout. -/
structure JoinConfig where
  address : SocketAddrV4
  controlMcastAddr : SocketAddrV4
  senderPort : BitVec 16
  receiverPort : BitVec 16
  rcvbuf : BitVec 32
  startTimeout : ℤ

/-- The locals of the loop, with the fields of `NetConfig` and `ClientConfig` that it changes. -/
structure Joining where
  flags : ℕ
  blockSize : ℕ
  dataMcastAddr : SocketAddrV4
  clientNumber : ℤ
  serverAddr : SocketAddrV4
  senderIsNewgen : Bool
  haveServerAddress : Bool
  lastConnectReq : Option ℕ
  lastActivity : ℕ
  lateSlices : List (ℤ × ℤ × ℤ)

def Joining.hasFlag (x : Joining) (flag : ℕ) : Bool := x.flags &&& flag ≠ 0

/-- The locals at the start (receiver.rs:136-137, 352-393). -/
def Joining.start (flags now : ℕ) : Joining where
  flags := flags
  blockSize := 1456
  dataMcastAddr := ⟨0, 0⟩
  clientNumber := 0
  serverAddr := ⟨0, 0⟩
  senderIsNewgen := false
  haveServerAddress := false
  lastConnectReq := none
  lastActivity := now
  lateSlices := []

/-- A datagram in the buffer of 4096 bytes, of which it fills the first `n`. -/
structure Arrival where
  source : SocketAddrV4
  n : ℕ
  buf : List UInt8

/-- A turn of the loop, with the times before and after the wait and the datagrams in between. -/
structure Turn where
  began : ℕ
  arrivals : List Arrival
  now : ℕ

/-- Where `start_receiver` is: in the loop, past it after a reply or after a HELLO that is not
answered, or at its end. -/
inductive Receiver
  | looking (x : Joining)
  | connected (x : Joining)
  | listening (x : Joining)
  | left

/-- `x as u32` of an `i32`. -/
def asU32 (x : ℤ) : ℕ := (x % 2 ^ 32).toNat

/-- `recv_from_any_negotiate` (receiver.rs:185-243): the first datagram from one of the ports. -/
def recvFromAnyNegotiate (c : JoinConfig) (arrivals : List Arrival) : Option Arrival :=
  arrivals.find? fun d => d.source.port = c.senderPort || d.source.port = c.receiverPort

/-- The request, once a second (receiver.rs:396-415). -/
def request (c : JoinConfig) (x : Joining) (now : ℕ) : Joining × List Packet :=
  if (x.lastConnectReq.all fun t => fromSecs 1 ≤ now - t) ∧ x.hasFlag flagPassive = false then
    ({ x with lastConnectReq := some now },
      [⟨c.address, if x.haveServerAddress then x.serverAddr else c.controlMcastAddr,
        .connectReq ⟨receiverCapabilities.toNat, c.rcvbuf.toNat⟩⟩])
  else (x, [])

/-- `send_disconnect` (receivedata.rs:840-878). -/
def sendDisconnect (c : JoinConfig) (x : Joining) (exitStatus : ℤ) : List Packet :=
  let server := if x.serverAddr.ip ≠ 0 then [x.serverAddr] else []
  let control :=
    if c.controlMcastAddr.ip ≠ 0 ∧ c.controlMcastAddr ≠ x.serverAddr then [c.controlMcastAddr]
    else []
  (List.replicate (if exitStatus = 0 then 1 else 5)
    ((server ++ control).map fun dest => ⟨c.address, dest, .disconnect⟩)).flatten

/-- The slices overheard so far, with another datagram of one (receiver.rs:574-584). -/
def noteLate (s bytes rxmit : ℤ) : List (ℤ × ℤ × ℤ) → List (ℤ × ℤ × ℤ)
  | [] => [(s, bytes, rxmit)]
  | e :: rest =>
    if e.1 = s then (s, bytes, if rxmit > e.2.2 then rxmit else e.2.2) :: rest
    else e :: noteLate s bytes rxmit rest

/-- The number of a slice, its size and the round in a packet of a transfer
(receiver.rs:560-573). -/
def overheard (buf : List UInt8) : Option (ℤ × ℤ × ℤ) :=
  if opcodeOf buf = cmdReqack then
    some ((Reqack.unpack buf).sliceNo, (Reqack.unpack buf).bytes, (Reqack.unpack buf).rxmit)
  else if opcodeOf buf = cmdData then
    some ((DataBlock.unpack buf).sliceNo, (DataBlock.unpack buf).bytes, 0)
  else if opcodeOf buf = cmdFec then
    some ((FecBlock.unpack buf).sliceNo, (FecBlock.unpack buf).bytes, 0)
  else none

namespace Joining

variable (x : Joining)

/-- A CONNECT_REPLY (receiver.rs:473-495); a number of -1 is refused. -/
def takeReply (source : SocketAddrV4) (reply : ConnectReply) : Joining :=
  let x := { x with
    clientNumber := reply.clNr
    blockSize := asU32 reply.blockSize
    serverAddr := source }
  if BitVec.ofNat 32 reply.capabilities &&& capNewGen ≠ 0 then
    { x with senderIsNewgen := true, dataMcastAddr := ⟨ip4From16 reply.mcast, 0⟩ }
  else x

/-- What a HELLO of the new generation announces (receiver.rs:503-511). -/
def takeHello (hello : Hello) : Joining :=
  { x with
    senderIsNewgen := true
    dataMcastAddr := ⟨ip4From16 hello.mcast, 0⟩
    blockSize := asU32 hello.blockSize
    flags := if BitVec.ofNat 32 hello.capabilities &&& capAsync ≠ 0 then x.flags ||| flagPassive
      else x.flags }

/-- A HELLO asks for another request at once (receiver.rs:497-501). -/
def asked (opcode : HelloOpcode) : Joining :=
  { x with
    lastConnectReq := none
    flags := if opcode = HelloOpcode.streaming then x.flags ||| flagStreaming else x.flags }

/-- A HELLO (receiver.rs:496-519). -/
def hear (source : SocketAddrV4) (opcode : HelloOpcode) (hello : Option Hello) : Receiver :=
  match hello.filter fun h => BitVec.ofNat 32 h.capabilities &&& capNewGen ≠ 0 with
  | some h =>
    let x := (x.asked opcode).takeHello h
    if x.hasFlag flagPassive then .listening x
    else .looking { x with serverAddr := source, haveServerAddress := true }
  | none => .looking { x.asked opcode with serverAddr := source, haveServerAddress := true }

end Joining

/-- The dispatch of a datagram (receiver.rs:459-601). -/
def dispatch (c : JoinConfig) (x : Joining) (d : Arrival) : Receiver :=
  if d.source.port ≠ c.senderPort ∨ d.n < 4 then .looking x
  else if opcodeOf d.buf = cmdConnectReply then
    if d.n < 32 then .looking x
    else
      let x := x.takeReply d.source (.unpack d.buf)
      if x.clientNumber = -1 then .left else .connected x
  else
    match helloOpcode (opcodeOf d.buf) with
    | some opcode => x.hear d.source opcode (if d.n ≥ 28 then some (.unpack d.buf) else none)
    | none =>
      if opcodeOf d.buf = cmdConnectReq then .looking x
      else
        match overheard d.buf with
        | some (s, bytes, rxmit) =>
          .looking { x with
            lateSlices := if s ≥ 0 then noteLate s bytes rxmit x.lateSlices else x.lateSlices }
        | none => .left

/-- The wait for a datagram, after the request (receiver.rs:419-462). -/
def await (c : JoinConfig) (x : Joining) (t : Turn) (sent : List Packet) : Receiver × List Packet :=
  match recvFromAnyNegotiate c t.arrivals with
  | some d => (dispatch c { x with lastActivity := t.now } d, sent)
  | none =>
    if c.startTimeout > 0 ∧ fromSecs c.startTimeout ≤ t.now - x.lastActivity then
      (.left, sent ++ sendDisconnect c x 1)
    else (.looking x, sent)

/-- A turn of the loop (receiver.rs:395-602): where it leads to, and what is sent. -/
def turn (c : JoinConfig) : Receiver → Turn → Option (Receiver × List Packet)
  | .looking x, t =>
    let (x, sent) := request c x t.began
    some (await c { x with haveServerAddress := false } t sent)
  | _, _ => none

/-! ### What a turn does -/

variable {c : JoinConfig} {x : Joining} {d : Arrival}

/-- A datagram from the port of the sender is passed over, ends the negotiation or is a HELLO. -/
inductive Dispatched (c : JoinConfig) (x : Joining) (d : Arrival) : Receiver → Prop
  | kept (late : List (ℤ × ℤ × ℤ)) : Dispatched c x d (.looking { x with lateSlices := late })
  | left : Dispatched c x d .left
  | connected : d.source.port = c.senderPort → opcodeOf d.buf = cmdConnectReply → 32 ≤ d.n →
      (ConnectReply.unpack d.buf).clNr ≠ -1 →
      Dispatched c x d (.connected (x.takeReply d.source (.unpack d.buf)))
  | heard (opcode : HelloOpcode) : d.source.port = c.senderPort →
      helloOpcode (opcodeOf d.buf) = some opcode →
      Dispatched c x d
        (x.hear d.source opcode (if d.n ≥ 28 then some (.unpack d.buf) else none))

theorem Joining.takeReply_frame (x : Joining) (source : SocketAddrV4) (reply : ConnectReply) :
    (x.takeReply source reply).clientNumber = reply.clNr ∧
    (x.takeReply source reply).blockSize = asU32 reply.blockSize ∧
    (x.takeReply source reply).serverAddr = source ∧
    (BitVec.ofNat 32 reply.capabilities &&& capNewGen ≠ 0 →
      (x.takeReply source reply).senderIsNewgen = true ∧
        (x.takeReply source reply).dataMcastAddr = ⟨ip4From16 reply.mcast, 0⟩) ∧
    (BitVec.ofNat 32 reply.capabilities &&& capNewGen = 0 →
      (x.takeReply source reply).senderIsNewgen = x.senderIsNewgen ∧
        (x.takeReply source reply).dataMcastAddr = x.dataMcastAddr) := by
  unfold Joining.takeReply
  dsimp only
  split
  · rename_i hnew
    exact ⟨rfl, rfl, rfl, fun _ => ⟨rfl, rfl⟩, fun hold => absurd hold hnew⟩
  · rename_i hold
    exact ⟨rfl, rfl, rfl, fun hnew => absurd hnew hold, fun _ => ⟨rfl, rfl⟩⟩

theorem dispatch_dispatched (c : JoinConfig) (x : Joining) (d : Arrival) :
    Dispatched c x d (dispatch c x d) := by
  unfold dispatch
  split
  · exact Dispatched.kept x.lateSlices
  · rename_i hport
    rw [not_or, not_not, not_lt] at hport
    split
    · rename_i hreply
      split
      · exact Dispatched.kept x.lateSlices
      · rename_i hlength
        dsimp only
        rw [(x.takeReply_frame d.source (.unpack d.buf)).1]
        split
        · exact Dispatched.left
        · rename_i hnumber
          exact Dispatched.connected hport.1 hreply (Nat.le_of_not_lt hlength) hnumber
    · split
      · rename_i opcode hhello
        exact Dispatched.heard opcode hport.1 hhello
      · split
        · exact Dispatched.kept x.lateSlices
        · split
          · exact Dispatched.kept _
          · exact Dispatched.left

/-- After a HELLO the receiver asks the sender, or listens with what the HELLO announces. -/
theorem Joining.hear_cases (x : Joining) (source : SocketAddrV4) (opcode : HelloOpcode)
    (hello : Option Hello) :
    (∃ x', x.hear source opcode hello = .looking x' ∧
      (x'.senderIsNewgen = x.senderIsNewgen ∧ x'.dataMcastAddr = x.dataMcastAddr ∨
        ∃ h, hello = some h ∧ x'.dataMcastAddr = ⟨ip4From16 h.mcast, 0⟩)) ∨
    ∃ h x', hello = some h ∧ x.hear source opcode hello = .listening x' ∧
      x'.dataMcastAddr = ⟨ip4From16 h.mcast, 0⟩ ∧ x'.blockSize = asU32 h.blockSize := by
  unfold Joining.hear
  cases hfilter : hello.filter fun h => BitVec.ofNat 32 h.capabilities &&& capNewGen ≠ 0 with
  | some h =>
    have hsome : hello = some h := (Option.filter_eq_some_iff.mp hfilter).1
    dsimp only
    split
    · exact Or.inr ⟨h, (x.asked opcode).takeHello h, hsome, rfl, rfl, rfl⟩
    · left
      refine ⟨_, rfl, Or.inr ⟨h, hsome, ?_⟩⟩
      rfl
  | none =>
    left
    refine ⟨_, rfl, Or.inl ⟨?_, ?_⟩⟩
    · rfl
    · rfl

theorem request_cases (c : JoinConfig) (x : Joining) (now : ℕ) :
    ∃ t sent, request c x now = ({ x with lastConnectReq := t }, sent) ∧
      ∀ p ∈ sent, p.source = c.address ∧
        p.message = .connectReq ⟨receiverCapabilities.toNat, c.rcvbuf.toNat⟩ := by
  unfold request
  split
  · refine ⟨_, _, rfl, fun p hp => ?_⟩
    obtain rfl := List.mem_singleton.mp hp
    exact ⟨rfl, rfl⟩
  · exact ⟨x.lastConnectReq, [], rfl, fun p hp => (by cases hp)⟩

theorem sendDisconnect_mem {status : ℤ} {p : Packet} (hp : p ∈ sendDisconnect c x status) :
    p.source = c.address ∧ p.message = .disconnect := by
  obtain ⟨l, hl, hp⟩ := List.mem_flatten.mp hp
  rw [List.eq_of_mem_replicate hl] at hp
  obtain ⟨dest, -, rfl⟩ := List.mem_map.mp hp
  exact ⟨rfl, rfl⟩

theorem recvFromAnyNegotiate_mem {arrivals : List Arrival}
    (h : recvFromAnyNegotiate c arrivals = some d) : d ∈ arrivals :=
  List.mem_of_find?_eq_some h

theorem turn_looking {t : Turn} {r : Receiver} {sent : List Packet}
    (h : turn c (.looking x) t = some (r, sent)) : ∃ last asked,
      (∀ p ∈ asked, p.source = c.address ∧
        p.message = .connectReq ⟨receiverCapabilities.toNat, c.rcvbuf.toNat⟩) ∧
      await c { x with lastConnectReq := last, haveServerAddress := false } t asked = (r, sent) := by
  obtain ⟨last, asked, hrequest, hasked⟩ := request_cases c x t.began
  have hturn : turn c (.looking x) t = some (await c
      { (request c x t.began).1 with haveServerAddress := false } t (request c x t.began).2) := rfl
  rw [h, hrequest] at hturn
  exact ⟨last, asked, hasked, (Option.some.inj hturn).symm⟩

/-- What a turn does: nothing but a request, the dispatch of a datagram, or the end of the
attempts. -/
theorem turn_cases {t : Turn} {r : Receiver} {sent : List Packet}
    (h : turn c (.looking x) t = some (r, sent)) :
    (∀ p ∈ sent, p.source = c.address ∧
      (p.message = .connectReq ⟨receiverCapabilities.toNat, c.rcvbuf.toNat⟩ ∨
        p.message = .disconnect ∧ r = .left)) ∧
    ∃ x', x'.senderIsNewgen = x.senderIsNewgen ∧ x'.dataMcastAddr = x.dataMcastAddr ∧
      (r = .looking x' ∨ r = .left ∨ ∃ d ∈ t.arrivals, Dispatched c x' d r) := by
  obtain ⟨last, asked, hasked, hawait⟩ := turn_looking h
  have hasks : ∀ p ∈ asked, p.source = c.address ∧
      (p.message = .connectReq ⟨receiverCapabilities.toNat, c.rcvbuf.toNat⟩ ∨
        p.message = .disconnect ∧ r = .left) :=
    fun p hp => ⟨(hasked p hp).1, Or.inl (hasked p hp).2⟩
  unfold await at hawait
  split at hawait
  · rename_i d hrecv
    obtain ⟨rfl, rfl⟩ := Prod.mk.inj hawait
    exact ⟨hasks,
      { x with lastConnectReq := last, haveServerAddress := false, lastActivity := t.now }, rfl, rfl,
      Or.inr (Or.inr ⟨d, recvFromAnyNegotiate_mem hrecv, dispatch_dispatched _ _ _⟩)⟩
  · split at hawait
    · obtain ⟨rfl, rfl⟩ := Prod.mk.inj hawait
      refine ⟨fun p hp => ?_, x, rfl, rfl, Or.inr (Or.inl rfl)⟩
      rcases List.mem_append.mp hp with hp | hp
      · exact hasks p hp
      · exact ⟨(sendDisconnect_mem hp).1, Or.inr ⟨(sendDisconnect_mem hp).2, rfl⟩⟩
    · obtain ⟨rfl, rfl⟩ := Prod.mk.inj hawait
      exact ⟨hasks, { x with lastConnectReq := last, haveServerAddress := false }, rfl, rfl,
        Or.inl rfl⟩

end Udpcast.Negotiate
