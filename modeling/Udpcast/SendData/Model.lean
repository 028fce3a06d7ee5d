import Mathlib.Data.Int.Basic
import Mathlib.Data.Fin.Basic
import Mathlib.Data.List.FinRange
import Mathlib.Logic.Function.Basic
import Udpcast.Fec.Coder
import Udpcast.Fifo
import Udpcast.Participants
import Udpcast.Protocol

/-!
# The network sender and the local reader (senddata.rs, diskio.rs:265-299)

`spawn_net_sender` is a machine that takes one step for every use of what it shares with the local
reader and with the thread of the return channel; the steps of these two are actions of their own.
An arithmetic overflow or an index out of range has the result `none`, as a call that waits has.

Four fields are not part of the program: what has been read from the input, into which sizes it has
been cut, which datagrams have been sent, and a trace.
-/

namespace Udpcast.SendData

/-- `QUEUE_SIZE` (senddata.rs:14) and `BLOCKSIZE` (diskio.rs:18). -/
def queueSize : ℕ := 256
def ioBlockSize : ℕ := 4096

/-- The result of `u32` and `i32` arithmetic. -/
def checkU32 (n : ℕ) : Option ℕ := if n < 2 ^ 32 then some n else none
def checkI32 (x : ℤ) : Option ℤ := if x < 2 ^ 31 then some x else none

/-- `n as i32`, `n as i16` and `n as u16` -/
def asI32 (n : ℕ) : ℤ := Int.bmod n (2 ^ 32)
def asI16 (n : ℤ) : ℤ := Int.bmod n (2 ^ 16)
def asU16 (n : ℕ) : ℕ := n % 2 ^ 16

inductive SliceState where
  | free
  | new
  | xmitted
  | acked
  deriving DecidableEq

/-- `Slice` (senddata.rs:23-38), with the fields that are read; `fec_data` as its blocks. -/
structure Slice where
  base : ℕ
  sliceNo : ℤ
  bytes : ℕ
  state : SliceState
  rxmitMap : Bitmap
  isXmittedMap : Bitmap
  rxmitId : ℤ
  readySet : Bitmap
  answeredSet : Bitmap
  nrReady : ℕ
  nrAnswered : ℕ
  needRxmit : Bool
  lastGoodBlock : ℕ
  fecData : List (List UInt8)

/-- `Slice::new` (senddata.rs:42-59). -/
def Slice.new (fecData : List (List UInt8)) : Slice where
  base := 0
  sliceNo := 0
  bytes := 0
  state := .free
  rxmitMap := 0
  isXmittedMap := 0
  rxmitId := 0
  readySet := 0
  answeredSet := 0
  nrReady := 0
  nrAnswered := 0
  needRxmit := false
  lastGoodBlock := 0
  fecData := fecData

inductive Discovery where
  | doubling
  | reducing
  deriving DecidableEq

/-- `FLAG_SN`, `FLAG_NOTSN`, `FLAG_ASYNC` and `FLAG_FEC` (senddata.rs:101-105). -/
def flagSn : ℕ := 0x0001
def flagNotSn : ℕ := 0x0002
def flagAsync : ℕ := 0x0004
def flagFec : ℕ := 0x0010

/-- `NetConfig` (senddata.rs:64-93), with the fields that the sender's main loop reads; the block
size has been checked (sender.rs:273-277). -/
structure NetConfig where
  blockSize : ℕ
  sliceSize : ℕ
  flags : ℕ
  defaultSliceSize : ℕ
  maxSliceSize : ℕ
  retriesUntilDrop : ℤ
  discovery : Discovery
  fecStripes : ℕ
  fecRedundancy : ℕ
  fecStripesize : ℕ
  blockSize_pos : 0 < blockSize

namespace NetConfig

variable (c : NetConfig)

/-- `net_config.flags & flag != 0` -/
def hasFlag (flag : ℕ) : Bool := c.flags &&& flag ≠ 0

/-- `max_in_flight` (senddata.rs:428-432). -/
def maxInFlight : ℕ := if c.hasFlag flagNotSn ∨ c.hasFlag flagSn = false then 1 else 3

/-- The slice size without `default_slice_size` (senddata.rs:442-451). -/
def autoSliceSize : Option ℕ :=
  if c.hasFlag flagFec then checkU32 (c.fecStripesize * c.fecStripes)
  else if c.hasFlag flagAsync then some 1024
  else if c.hasFlag flagSn then some 112
  else some 130

/-- The slice size to start with (senddata.rs:441-455). -/
def firstSliceSize : Option NetConfig :=
  if c.defaultSliceSize = 0 then
    c.autoSliceSize.map fun size => { c with sliceSize := size, discovery := .doubling }
  else some { c with sliceSize := c.defaultSliceSize }

/-- The limits with parity blocks (senddata.rs:457-463). -/
def limitFec : Option NetConfig :=
  if c.hasFlag flagFec then
    (checkU32 (128 * c.fecStripes)).map fun limit =>
      { c with
        sliceSize := if c.sliceSize > limit then limit else c.sliceSize
        maxSliceSize := if c.maxSliceSize > limit then limit else c.maxSliceSize }
  else some c

/-- The limit of the slice size (senddata.rs:464-466). -/
def limitSliceSize : NetConfig :=
  if c.sliceSize > c.maxSliceSize then { c with sliceSize := c.maxSliceSize } else c

/-- The blocks of `fec_data` (senddata.rs:390-394). -/
def nrFec : Option ℕ :=
  if c.hasFlag flagFec then
    (checkU32 (c.fecStripes * c.fecRedundancy * c.blockSize)).map fun _ =>
      c.fecStripes * c.fecRedundancy
  else some 0

/-- The blocks of a slice of so many bytes: `(bytes + block_size - 1) / block_size`. -/
def nrBlocks (bytes : ℕ) : ℕ := (bytes + c.blockSize - 1) / c.blockSize

end NetConfig

/-- `IncomingMsg` (senddata.rs:155-169). -/
inductive IncomingMsg where
  | ok (sliceNo : ℤ) (clNo : ℕ)
  | retransmit (sliceNo : ℤ) (clNo : ℕ) (map : Bitmap) (rxmit : ℤ)
  | disconnect (clNo : ℕ)

def IncomingMsg.clNo : IncomingMsg → ℕ
  | .ok _ cl => cl
  | .retransmit _ cl _ _ => cl
  | .disconnect cl => cl

/-- What the sender does for a slice: it is cut from the input, an OK for it is dispatched, and it
is acked while the table of the participants is `used`. -/
inductive Event where
  | formed (sliceNo : ℤ)
  | ok (sliceNo : ℤ) (clNo : ℕ)
  | acked (sliceNo : ℤ) (used : Bitmap)
  deriving DecidableEq

/-- Where `spawn_net_sender` is: at the top of the main loop; in one of the three loops over the
pending slices, with the rest of the list; before a new slice is formed; before `fec_encode_slice`
and before `send_slice`; waiting for a message; or after the loop. -/
inductive Phase where
  | top
  | acking (rest : List (Fin 8)) (nrPart : ℕ) (freed : Bool)
  | rexmitting (rest : List (Fin 8)) (retransmitted : Bool)
  | reqacking (rest : List (Fin 8)) (nrPart : ℕ) (freed : Bool)
  | forming
  | encoding (idx : Fin 8)
  | sending (idx : Fin 8)
  | waiting
  | returned
  deriving DecidableEq

/-- Where `local_reader_fifo` is: before `consume_contiguous_min_amount`, before `input.read` with
the position and the size of the buffer, before `free_mem_queue.consumed`, before `write_at`,
before `data.produce`, or at its end. -/
inductive ReaderPhase where
  | waiting
  | reading (pos bytes : ℕ)
  | got (pos : ℕ) (buf : List UInt8)
  | consumed (pos : ℕ) (buf : List UInt8)
  | written (n : ℕ)
  | returned
  deriving DecidableEq

/-- The local variables of `spawn_net_sender`, the shared ring and table of the participants, the
return channel with the message its thread holds, and the state of the reader. -/
structure Sender where
  config : NetConfig
  fifo : Fifo
  slices : Fin 8 → Slice
  sliceNo : ℤ
  pending : List (Fin 8)
  atEnd : Bool
  db : ParticipantsDb
  held : Option IncomingMsg
  msgs : List IncomingMsg
  phase : Phase
  reader : ReaderPhase
  input : List UInt8
  cuts : List ℕ
  sent : List Datagram
  trace : List Event

/-- The state in which `spawn_net_sender` and the reader start (senddata.rs:390-466). -/
def Sender.start (config : NetConfig) (db : ParticipantsDb) : Option Sender := do
  let fifo ← Fifo.new config.blockSize
  let nrFec ← config.nrFec
  let config ← config.firstSliceSize
  let config ← config.limitFec
  some
    { config := config.limitSliceSize
      fifo := fifo
      slices := fun _ => Slice.new (List.replicate nrFec (List.replicate config.blockSize 0))
      sliceNo := 0
      pending := []
      atEnd := false
      db := db
      held := none
      msgs := []
      phase := .top
      reader := .waiting
      input := []
      cuts := []
      sent := []
      trace := [] }

namespace Sender

/-- The slot `i` changed by `f`. -/
def modify (x : Sender) (i : Fin 8) (f : Slice → Slice) : Sender :=
  { x with slices := Function.update x.slices i (f (x.slices i)) }

def emit (x : Sender) (e : Event) : Sender := { x with trace := x.trace ++ [e] }

def send (x : Sender) (ds : List Datagram) : Sender := { x with sent := x.sent ++ ds }

end Sender

/-! ### The slot table -/

/-- `find_slice` (senddata.rs:853-857). -/
def findSlice (x : Sender) (sliceNo : ℤ) : Option (Fin 8) :=
  (List.finRange 8).find? fun i =>
    decide ((x.slices i).state ≠ .free ∧ (x.slices i).sliceNo = sliceNo)

/-- `find_free_slice` (senddata.rs:1166-1168). -/
def findFreeSlice (x : Sender) : Option (Fin 8) :=
  (List.finRange 8).find? fun i => decide ((x.slices i).state = .free)

/-- `free_slice` (senddata.rs:1162-1164). -/
def freeSlice (x : Sender) (i : Fin 8) : Sender := x.modify i fun s => { s with state := .free }

/-- The doubling of the slice size (senddata.rs:1145-1153). -/
def growSliceSize (c : NetConfig) : Option NetConfig :=
  if c.hasFlag flagSn = false ∧ c.discovery = .doubling then do
    let size ← checkU32 (c.sliceSize + c.sliceSize / 4)
    some (if size ≥ c.maxSliceSize then
        { c with sliceSize := c.maxSliceSize, discovery := .reducing }
      else { c with sliceSize := size })
  else some c

/-- `ack_slice` (senddata.rs:1136-1160). -/
def ackSlice (x : Sender) (i : Fin 8) : Option Sender :=
  if (x.slices i).state = .acked then some x
  else do
    let config ← growSliceSize x.config
    let freeMemQueue ← x.fifo.freeMemQueue.produce (x.slices i).bytes
    some (({ x with config := config, fifo.freeMemQueue := freeMemQueue }.modify i
      fun s => { s with state := .acked }).emit (.acked (x.slices i).sliceNo x.db.used))

/-! ### Sending -/

/-- The packet of block `i` (senddata.rs:943-961, 1093-1108). -/
def dataPacket (x : Sender) (slice : Slice) (i : ℕ) : Option Datagram := do
  let size := if i * x.config.blockSize ≥ slice.bytes then 0
    else min x.config.blockSize (slice.bytes - i * x.config.blockSize)
  let dataStart := (slice.base + i * x.config.blockSize) % x.fifo.dataBufSize
  let payload ← x.fifo.readAt dataStart size
  some (.data ⟨slice.sliceNo, asU16 i, asI32 slice.bytes⟩ payload)

/-- `send_slice` (senddata.rs:928-968). -/
def sendSlice (x : Sender) (idx : Fin 8) : Option Sender :=
  ((List.range (x.config.nrBlocks (x.slices idx).bytes)).mapM (dataPacket x (x.slices idx))).map x.send

/-- The packet of parity block `i` (senddata.rs:978-996).  `FecBlock::pack` writes the number of
stripes as an `i16` (protocol.rs:281). -/
def fecPacket (x : Sender) (slice : Slice) (i : ℕ) : Option Datagram :=
  slice.fecData[i]?.map fun payload =>
    .fec ⟨asI16 (asI32 x.config.fecStripes), slice.sliceNo, asU16 i, asI32 slice.bytes⟩ payload

/-- `send_fec_blocks` (senddata.rs:970-1000). -/
def sendFecBlocks (x : Sender) (idx : Fin 8) : Option Sender :=
  ((List.range (x.config.fecRedundancy * x.config.fecStripes)).mapM (fecPacket x (x.slices idx))).map x.send

/-- Block `i` of a slice for `fec_encode`, the last one padded with zeros (senddata.rs:1015-1040). -/
def fecBlock (x : Sender) (slice : Slice) (i : ℕ) : Option (List UInt8) :=
  let start := (slice.base + i * x.config.blockSize) % x.fifo.dataBufSize
  let leftOver := slice.bytes % x.config.blockSize
  if i = x.config.nrBlocks slice.bytes - 1 ∧ leftOver > 0 then
    some (Ring.window x.fifo.dataBufSize start leftOver x.fifo.buffer
      ++ List.replicate (x.config.blockSize - leftOver) 0)
  else x.fifo.readAt start x.config.blockSize

/-- One turn of the stripe loop of `fec_encode_slice` (senddata.rs:1023-1068). -/
def encodeStripe (x : Sender) (slice : Slice) (fecData : List (List UInt8)) (stripe : ℕ) :
    Option (List (List UInt8)) := do
  let tempBlocks ← (stripeIndices (x.config.nrBlocks slice.bytes) x.config.fecStripes stripe).mapM
    (fecBlock x slice)
  let fecOffsets := (List.range x.config.fecRedundancy).map fun r => stripe + r * x.config.fecStripes
  if tempBlocks = [] ∨ fecOffsets = [] then some fecData
  else do
    let fecBlocks ← fecOffsets.mapM (fecData[·]?)
    let fecBlocks ← Fec.fecEncode x.config.blockSize tempBlocks fecBlocks
    some ((fecOffsets.zip fecBlocks).foldl (fun d p => d.set p.1 p.2) fecData)

/-- `fec_encode_slice` (senddata.rs:1002-1069). -/
def fecEncodeSlice (x : Sender) (idx : Fin 8) : Option Sender := do
  let fecData ← (List.range x.config.fecStripes).foldlM (encodeStripe x (x.slices idx))
    (x.slices idx).fecData
  some (x.modify idx fun s => { s with fecData := fecData })

/-- One turn of the block loop of `rexmit_slice` (senddata.rs:1084-1124). -/
def rexmitBlock (x : Sender) (acc : Slice × List Datagram) (i : ℕ) :
    Option (Slice × List Datagram) := do
  let (slice, packets) := acc
  if !(← Bitmap.bitIsSet slice.rxmitMap i) || (← Bitmap.bitIsSet slice.isXmittedMap i) then
    some (if i > slice.lastGoodBlock then { slice with lastGoodBlock := i } else slice, packets)
  else do
    let map ← Bitmap.setBit slice.isXmittedMap i
    let packet ← dataPacket x slice i
    some ({ slice with isXmittedMap := map }, packets ++ [packet, packet])

/-- `rexmit_slice` (senddata.rs:1071-1134). -/
def rexmitSlice (x : Sender) (idx : Fin 8) : Option Sender := do
  let (slice, packets) ← (List.range (x.config.nrBlocks (x.slices idx).bytes)).foldlM (rexmitBlock x)
    (x.slices idx, [])
  some ((x.modify idx fun _ => { slice with needRxmit := false }).send packets)

/-- The reduction of the slice size (senddata.rs:1182-1196). -/
def reduceSliceSize (c : NetConfig) (slice : Slice) : NetConfig :=
  if c.hasFlag flagAsync = false ∧ slice.rxmitId ≠ 0 ∧
      slice.lastGoodBlock ≠ 0 ∧ slice.lastGoodBlock < c.nrBlocks slice.bytes then
    let size := if slice.lastGoodBlock < c.sliceSize / 2 then c.sliceSize / 2 else slice.lastGoodBlock
    { c with sliceSize := if size < 32 then 32 else size, discovery := .reducing }
  else c

/-- A slice after its REQACK: the answers of the round are forgotten (senddata.rs:1209-1214). -/
def Slice.nextRound (s : Slice) : Slice :=
  { s with
    lastGoodBlock := 0
    answeredSet := s.readySet
    nrAnswered := s.nrReady
    needRxmit := false
    rxmitMap := 0
    isXmittedMap := 0 }

/-- `send_reqack` (senddata.rs:1170-1223). -/
def sendReqack (x : Sender) (idx : Fin 8) : Option Sender :=
  if x.config.hasFlag flagAsync ∧ (x.slices idx).bytes ≠ 0 then ackSlice x idx
  else
    some (({ x with config := reduceSliceSize x.config (x.slices idx) }.modify idx Slice.nextRound).send
      [.reqack ⟨(x.slices idx).sliceNo, asI32 (x.slices idx).bytes, (x.slices idx).rxmitId⟩])

/-! ### The messages -/

/-- The sets after an OK (senddata.rs:783-791). -/
def Slice.ready (s : Slice) (clNo : ℕ) : Slice :=
  let s := if s.readySet.getLsbD clNo then s
    else { s with readySet := Bitmap.insert s.readySet clNo, nrReady := s.nrReady + 1 }
  if s.answeredSet.getLsbD clNo then s
  else { s with answeredSet := Bitmap.insert s.answeredSet clNo, nrAnswered := s.nrAnswered + 1 }

/-- A slice after a RETRANSMIT (senddata.rs:830-837). -/
def Slice.missing (s : Slice) (clNo : ℕ) (map : Bitmap) : Slice :=
  let s := { s with rxmitMap := s.rxmitMap ||| ~~~map, needRxmit := true }
  if s.answeredSet.getLsbD clNo then s
  else { s with answeredSet := Bitmap.insert s.answeredSet clNo, nrAnswered := s.nrAnswered + 1 }

/-- A slice after a DISCONNECT (senddata.rs:843-850). -/
def Slice.forget (s : Slice) (clNo : ℕ) : Slice :=
  let s := if s.readySet.getLsbD clNo then
      { s with readySet := Bitmap.erase s.readySet clNo, nrReady := s.nrReady - 1 }
    else s
  if s.answeredSet.getLsbD clNo then
    { s with answeredSet := Bitmap.erase s.answeredSet clNo, nrAnswered := s.nrAnswered - 1 }
  else s

/-- `handle_next_message` (senddata.rs:760-851).  The echoed `rxmit` is only printed. -/
def handleMessage (x : Sender) : IncomingMsg → Sender
  | .ok sliceNo clNo =>
    (match findSlice x sliceNo with
    | some idx =>
      { x with db := x.db.markAnswered clNo (some sliceNo) (x.slices idx).rxmitId }.modify idx
        (·.ready clNo)
    | none => { x with db := x.db.markAnswered clNo none 0 }).emit (.ok sliceNo clNo)
  | .retransmit sliceNo clNo map _ =>
    match findSlice x sliceNo with
    | some idx =>
      { x with db := x.db.markAnswered clNo (some sliceNo) (x.slices idx).rxmitId }.modify idx
        (·.missing clNo map)
    | none => { x with db := x.db.markAnswered clNo none 0 }
  | .disconnect clNo =>
    { x with
      slices := fun i => (x.slices i).forget clNo
      db := x.db.removeParticipant clNo }

/-! ### The main loop -/

/-- The loop is left (senddata.rs:755-757). -/
def finish (x : Sender) : Sender :=
  { x with fifo.freeMemQueue := x.fifo.freeMemQueue.produceEnd, phase := .returned }

/-- `pending.retain(|&idx| slices[idx].state != SliceState::Free)` -/
def retainPending (x : Sender) : Sender :=
  { x with pending := x.pending.filter fun idx => (x.slices idx).state ≠ .free }

/-- A turn of the first loop over the pending slices (senddata.rs:497-503). -/
def ackPending (x : Sender) (idx : Fin 8) (rest : List (Fin 8)) (nrPart : ℕ) (freed : Bool) :
    Option Sender :=
  if (x.slices idx).state ≠ .acked ∧ (x.slices idx).nrReady ≥ nrPart then
    (ackSlice x idx).map fun x => { freeSlice x idx with phase := .acking rest nrPart true }
  else some { x with phase := .acking rest nrPart freed }

/-- A turn of the second loop (senddata.rs:512-526). -/
def rexmitPending (x : Sender) (idx : Fin 8) (rest : List (Fin 8)) (retransmitted : Bool) :
    Option Sender :=
  if (x.slices idx).needRxmit then
    (rexmitSlice x idx).map fun x => { x with phase := .rexmitting rest true }
  else some { x with phase := .rexmitting rest retransmitted }

/-- The next round of a slice: `rxmit_id += 1` and `send_reqack`. -/
def nextRound (x : Sender) (idx : Fin 8) : Option Sender := do
  let rxmitId ← checkI32 ((x.slices idx).rxmitId + 1)
  sendReqack (x.modify idx fun s => { s with rxmitId := rxmitId }) idx

/-- A slot that `send_reqack` has acked is freed. -/
def freeAcked (x : Sender) (idx : Fin 8) : Sender :=
  if (x.slices idx).state = .acked then freeSlice x idx else x

/-- A turn of the third loop (senddata.rs:535-545). -/
def reqackPending (x : Sender) (idx : Fin 8) (rest : List (Fin 8)) (nrPart : ℕ) (freed : Bool) :
    Option Sender :=
  if (x.slices idx).state ≠ .acked ∧ (x.slices idx).nrAnswered ≥ nrPart then
    (nextRound x idx).map fun x =>
      { freeAcked x idx with
        phase := .reqacking rest nrPart (freed || decide ((x.slices idx).state = .acked)) }
  else some { x with phase := .reqacking rest nrPart freed }

/-- The size of the next slice of the bytes that are waiting (senddata.rs:563-569). -/
def cutBytes (c : NetConfig) (bytes : ℕ) : Option ℕ := do
  let limit ← checkU32 (c.blockSize * c.sliceSize)
  let bytes := if bytes > limit then limit else bytes
  some (if bytes > c.blockSize then bytes - bytes % c.blockSize else bytes)

/-- A new slice in slot `pos` (senddata.rs:559-586). -/
def formSlice (x : Sender) (pos : Fin 8) : Option Sender := do
  let base := x.fifo.data.getConsumerPosition
  let sliceNo ← checkI32 (x.sliceNo + 1)
  let bytes ← x.fifo.data.consume (10 * x.config.blockSize)
  let bytes ← cutBytes x.config bytes
  let data ← x.fifo.data.consumed bytes
  some (({ x with
      fifo.data := data
      sliceNo := sliceNo
      atEnd := decide (bytes = 0)
      cuts := x.cuts ++ [bytes]
      phase := if x.config.hasFlag flagFec ∧ bytes > 0 then .encoding pos else .sending pos }.modify pos
    fun s => { Slice.new s.fecData with
      base := base, sliceNo := x.sliceNo, bytes := bytes, state := .new }).emit (.formed x.sliceNo))

/-- From the decision about a new slice to the wait (senddata.rs:552-558, 630-636). -/
def formOrWait (x : Sender) : Option Sender :=
  if x.pending.length < x.config.maxInFlight ∧ x.atEnd = false then
    match findFreeSlice x with
    | some pos => formSlice x pos
    | none => some { x with phase := .top }
  else if x.atEnd ∧ x.pending = [] then some (finish x)
  else if x.config.hasFlag flagAsync then some (finish x)
  else some { x with phase := .waiting }

/-- The packets of the first transmission (senddata.rs:604-614). -/
def sendBlocks (x : Sender) (idx : Fin 8) : Option Sender := do
  let x ← sendSlice x idx
  if x.config.hasFlag flagFec ∧ (x.slices idx).bytes > 0 then sendFecBlocks x idx else some x

/-- The first transmission (senddata.rs:604-627). -/
def transmit (x : Sender) (idx : Fin 8) : Option Sender := do
  let x ← sendBlocks x idx
  let x ← sendReqack (x.modify idx fun s => { s with state := .xmitted }) idx
  some (if (x.slices idx).state = .acked then { freeSlice x idx with phase := .top }
    else { x with pending := x.pending ++ [idx], phase := .top })

/-- The next step of the main loop. -/
def advance (x : Sender) : Option Sender :=
  match x.phase with
  | .top =>
    if x.msgs = [] then some { x with phase := .acking x.pending x.db.nrParticipants false } else none
  | .acking (idx :: rest) nrPart freed => ackPending x idx rest nrPart freed
  | .acking [] _ freed =>
    some (if freed then { retainPending x with phase := .top }
      else { x with phase := .rexmitting x.pending false })
  | .rexmitting (idx :: rest) retransmitted => rexmitPending x idx rest retransmitted
  | .rexmitting [] retransmitted =>
    some { x with
      phase := if retransmitted then .top else .reqacking x.pending x.db.nrParticipants false }
  | .reqacking (idx :: rest) nrPart freed => reqackPending x idx rest nrPart freed
  | .reqacking [] _ freed =>
    some (if freed then { retainPending x with phase := .top } else { x with phase := .forming })
  | .forming => formOrWait x
  | .encoding idx => (fecEncodeSlice x idx).map fun x => { x with phase := .sending idx }
  | .sending idx => transmit x idx
  | .waiting => none
  | .returned => none

/-- The participants to drop for slot `idx` (senddata.rs:714-738). -/
def toDrop (x : Sender) (idx : Fin 8) : List ℕ :=
  (List.range maxClients).filter fun i =>
    x.db.isParticipantValid i && !(x.slices idx).readySet.getLsbD i &&
      let base := match x.db.firstAnsweredRound i with
        | some (sliceNo, round) => if sliceNo = (x.slices idx).sliceNo then round else 0
        | none => 0
      decide ((x.slices idx).rxmitId - base > x.config.retriesUntilDrop)

/-- The wait for a message has timed out (senddata.rs:668-752). -/
def timeOut (x : Sender) : Option Sender :=
  match x.pending with
  | [] => some { x with phase := .top }
  | idx :: _ =>
    if (x.slices idx).rxmitId > x.config.retriesUntilDrop then
      let x := { x with db := (toDrop x idx).foldl ParticipantsDb.removeParticipant x.db }
      if x.db.nrParticipants = 0 then some (finish x)
      else (nextRound x idx).map fun x => { x with phase := .top }
    else (nextRound x idx).map fun x => { x with phase := .top }

/-! ### The reader and all steps -/

/-- The reader's wait for memory (diskio.rs:273-281). -/
def readerWait (x : Sender) : Option Sender := do
  let pos := x.fifo.freeMemQueue.getConsumerPosition
  let bytes ← x.fifo.freeMemQueue.consumeContiguousMinAmount ioBlockSize
  let remainder := (pos + bytes) % ioBlockSize
  let bytes := if bytes > remainder ∧ remainder ≠ 0 then bytes - remainder else bytes
  some { x with reader := if bytes = 0 then .returned else .reading pos bytes }

inductive Action where
  /-- The thread of the return channel gets a message from a participant (senddata.rs:255-295). -/
  | arrive (m : IncomingMsg)
  /-- It puts the message into the queue (senddata.rs:297-315). -/
  | enqueue
  /-- The main loop takes a message at its top. -/
  | dispatch
  | advance
  /-- The wait ends with a message, or with a timeout. -/
  | wake
  | timeout
  /-- The reader. -/
  | readerWait
  | read (buf : List UInt8)
  | readerConsumed
  | readerWrite
  | readerProduced

def step (x : Sender) : Action → Option Sender
  | .arrive m =>
    if x.held.isNone ∧ x.db.isParticipantValid m.clNo then some { x with held := some m } else none
  | .enqueue =>
    match x.held with
    | some m =>
      if x.msgs.length < queueSize then some { x with held := none, msgs := x.msgs ++ [m] } else none
    | none => none
  | .dispatch =>
    match x.phase, x.msgs with
    | .top, m :: rest => some (handleMessage { x with msgs := rest } m)
    | _, _ => none
  | .advance => advance x
  | .wake => if x.phase = .waiting ∧ x.msgs ≠ [] then some { x with phase := .top } else none
  | .timeout => if x.phase = .waiting ∧ x.msgs = [] then timeOut x else none
  | .readerWait => if x.reader = .waiting then readerWait x else none
  | .read buf =>
    match x.reader with
    | .reading pos bytes =>
      if buf.length ≤ bytes then
        some (if buf = [] then
            { x with fifo.data := x.fifo.data.produceEnd, reader := .returned }
          else { x with input := x.input ++ buf, reader := .got pos buf })
      else none
    | _ => none
  | .readerConsumed =>
    match x.reader with
    | .got pos buf => (x.fifo.freeMemQueue.consumed buf.length).map fun freeMemQueue =>
      { x with fifo.freeMemQueue := freeMemQueue, reader := .consumed pos buf }
    | _ => none
  | .readerWrite =>
    match x.reader with
    | .consumed pos buf => (x.fifo.writeAt pos buf).map fun fifo =>
      { x with fifo := fifo, reader := .written buf.length }
    | _ => none
  | .readerProduced =>
    match x.reader with
    | .written n => (x.fifo.data.produce n).map fun data =>
      { x with fifo.data := data, reader := .waiting }
    | _ => none

end Udpcast.SendData
