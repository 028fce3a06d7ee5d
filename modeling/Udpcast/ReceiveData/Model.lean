import Mathlib.Data.Fin.Basic
import Mathlib.Data.List.FinRange
import Mathlib.Logic.Function.Basic
import Udpcast.Bitmap
import Udpcast.Fec.Coder
import Udpcast.Fifo
import Udpcast.Protocol

/-!
# The network receiver and the local writer (receivedata.rs, diskio.rs:302-331)

`spawn_net_receiver` is a machine that handles one datagram after the other; `writer` runs beside
it and shares the ring.  A datagram is handled in one step up to a call of `complete_slice`, which
is a step of its own, and the scan for the end marker after the handler is another one.  Handlers
have the result `none` while `new_slice` waits for memory, and when they abort.

The trace is not part of the program: it lists what the receiver has done for which slice.
-/

namespace Udpcast.ReceiveData

/-- `BLOCKSIZE` (diskio.rs:18). -/
def ioBlockSize : ℕ := 4096

inductive SliceState where
  | free
  | receiving
  | done
  deriving DecidableEq

/-- `Slice` (receivedata.rs:21-37), with the fields that are read. -/
structure Slice where
  state : SliceState
  base : ℕ
  sliceNo : ℤ
  blocksTransferred : ℕ
  dataBlocksTransferred : ℕ
  bytes : ℕ
  bytesKnown : Bool
  retransmitMap : Bitmap
  fecBlockNos : List ℕ
  fecBlocks : List (List UInt8)
  fecStripes : ℕ

/-- `Slice::new` (receivedata.rs:40-58). -/
def Slice.new : Slice where
  state := .free
  base := 0
  sliceNo := -1
  blocksTransferred := 0
  dataBlocksTransferred := 0
  bytes := 0
  bytesKnown := false
  retransmitMap := 0
  fecBlockNos := []
  fecBlocks := []
  fecStripes := 0

/-- What the receiver does for a slice: `new_slice` gives it a slot, `write_at` stores bytes,
`complete_slice` runs, and an answer is sent. -/
inductive Event where
  | claimed (sliceNo : ℤ)
  | wrote (sliceNo : ℤ)
  | completed (sliceNo : ℤ) (bytes : ℕ)
  | ok (sliceNo : ℤ)
  | retransmit (sliceNo rxmit : ℤ) (map : Bitmap)
  deriving DecidableEq

/-- Where `spawn_net_receiver` is: seeding the table with the late slices that are left, at the top
of the main loop, before the call of `complete_slice` for a slot, at the scan for the end marker,
or after the loop. -/
inductive Phase where
  | seeding (lateSlices : List (ℤ × ℤ × ℤ))
  | polling
  | completing (idx : Fin 8)
  | scanning
  | returned
  deriving DecidableEq

/-- Where `writer` is: before `consume_contiguous_min_amount`, before `data.consumed`, before
`free_mem_queue.produce`, or at its end. -/
inductive WriterPhase where
  | waiting
  | written (bytes : ℕ)
  | consumed (bytes : ℕ)
  | returned
  deriving DecidableEq

/-- The local variables of `spawn_net_receiver`, the fields of `ClientConfig` and `NetConfig` that
it reads, the shared ring, and the state of the writer with the bytes it has written. -/
structure Receiver where
  blockSize : ℕ
  exitWait : ℕ
  slices : Fin 8 → Slice
  currentSlice : Option (Fin 8)
  fifo : Fifo
  completedSlices : List Bool
  endMarkerSeen : Bool
  endReached : Bool
  drainDeadline : Option ℕ
  phase : Phase
  writer : WriterPhase
  output : List UInt8
  trace : List Event

/-- The state in which `spawn_net_receiver` and `writer` start. -/
def Receiver.start (blockSize exitWait : ℕ) (lateSlices : List (ℤ × ℤ × ℤ)) (fifo : Fifo) :
    Receiver where
  blockSize := blockSize
  exitWait := exitWait
  slices := fun _ => Slice.new
  currentSlice := none
  fifo := fifo
  completedSlices := []
  endMarkerSeen := false
  endReached := false
  drainDeadline := none
  phase := .seeding lateSlices
  writer := .waiting
  output := []
  trace := []

namespace Receiver

/-- The slot `i` changed by `f`. -/
def modify (r : Receiver) (i : Fin 8) (f : Slice → Slice) : Receiver :=
  { r with slices := Function.update r.slices i (f (r.slices i)) }

/-- `slice.bytes = bytes as usize; slice.bytes_known = true;` -/
def learnBytes (r : Receiver) (i : Fin 8) (bytes : ℤ) : Receiver :=
  r.modify i fun s => { s with bytes := asUsize bytes, bytesKnown := true }

def emit (r : Receiver) (e : Event) : Receiver := { r with trace := r.trace ++ [e] }

/-- `completed_slices.get(slice_no as usize) == Some(&true)` -/
def completed (r : Receiver) (sliceNo : ℤ) : Bool :=
  decide (0 ≤ sliceNo) && r.completedSlices.getD sliceNo.toNat false

/-- `(bytes + block_size - 1) / block_size`; the sum may overflow. -/
def blocksInSlice (r : Receiver) (bytes : ℕ) : Option ℕ :=
  if bytes + r.blockSize < 2 ^ 64 ∧ 0 < bytes + r.blockSize ∧ r.blockSize ≠ 0 then
    some ((bytes + r.blockSize - 1) / r.blockSize)
  else none

end Receiver

open Receiver

/-! ### The slot table -/

/-- `find_slice` (receivedata.rs:368-385). -/
def findSlice (r : Receiver) (currentSlice : Option (Fin 8)) (sliceNo : ℤ) : Option (Fin 8) :=
  let scan := (List.finRange 8).find? fun i =>
    decide ((r.slices i).sliceNo = sliceNo ∧ (r.slices i).state ≠ .free)
  match currentSlice with
  | some idx => if (r.slices idx).sliceNo = sliceNo then some idx else scan
  | none => scan

/-- The slot `new_slice` takes (receivedata.rs:390-394). -/
def freeSlot (r : Receiver) : Option (Fin 8) :=
  ((List.finRange 8).find? fun i => decide ((r.slices i).state = .free)).or
    ((List.finRange 8).find? fun i => decide ((r.slices i).state = .done))

/-- A slot as `new_slice` leaves it (receivedata.rs:400-415). -/
def Slice.claimed (base : ℕ) (sliceNo : ℤ) : Slice where
  state := .receiving
  base := base
  sliceNo := sliceNo
  blocksTransferred := 0
  dataBlocksTransferred := 0
  bytes := 0
  bytesKnown := false
  retransmitMap := 0
  fecBlockNos := []
  fecBlocks := []
  fecStripes := 0

def claim (r : Receiver) (i : Fin 8) (sliceNo : ℤ) : Receiver :=
  (r.modify i fun _ => Slice.claimed r.fifo.freeMemQueue.getConsumerPosition sliceNo).emit
    (.claimed sliceNo)

/-- `new_slice` (receivedata.rs:387-417): the inner `none` is its result `None`. -/
def newSlice (r : Receiver) (sliceNo : ℤ) : Option (Option (Fin 8 × Receiver)) :=
  match freeSlot r with
  | none => some none
  | some i =>
    (r.fifo.freeMemQueue.consume (r.blockSize * maxSliceSize)).map fun _ =>
      some (i, claim r i sliceNo)

/-- The slot of a slice, found or new, as the handlers begin (receivedata.rs:429-440). -/
def openSlice (r : Receiver) (currentSlice : Option (Fin 8)) (sliceNo : ℤ) :
    Option (Option (Fin 8 × Receiver)) :=
  match findSlice r currentSlice sliceNo with
  | some i => some (some (i, r))
  | none => newSlice r sliceNo

/-! ### Recovery with parity blocks -/

/-- The parity blocks of one stripe with their numbers in it (receivedata.rs:583-590). -/
def selectFec (slice : Slice) (stripe : ℕ) : List (ℕ × List UInt8) :=
  ((slice.fecBlockNos.zip slice.fecBlocks).filter fun p => p.1 % slice.fecStripes = stripe).map
    fun p => (p.1 / slice.fecStripes, p.2)

/-- The ring position of a block. -/
def blockStart (r : Receiver) (i : Fin 8) (blockNo : ℕ) : ℕ :=
  ((r.slices i).base + blockNo * r.blockSize) % r.fifo.dataBufSize

/-- A block is stored: `write_at`, the bit and the counters (receivedata.rs:461-469). -/
def storeBlock (r : Receiver) (i : Fin 8) (blockNo : ℕ) (row : List UInt8) : Option Receiver := do
  let fifo ← r.fifo.writeAt (blockStart r i blockNo) row
  let map ← Bitmap.setBit (r.slices i).retransmitMap blockNo
  some (({ r with fifo := fifo }.modify i fun s =>
    { s with
      retransmitMap := map
      dataBlocksTransferred := s.dataBlocksTransferred + 1
      blocksTransferred := s.blocksTransferred + 1 }).emit (.wrote (r.slices i).sliceNo))

/-- The data blocks of a stripe as they are in the ring, zeros where one is missing
(receivedata.rs:597-605). -/
def stripeBlocks (r : Receiver) (i : Fin 8) (indices : List ℕ) : Option (List (List UInt8)) :=
  indices.mapM fun gi => do
    if ← Bitmap.bitIsSet (r.slices i).retransmitMap gi then
      r.fifo.readAt (blockStart r i gi) r.blockSize
    else some (List.replicate r.blockSize 0)

/-- The positions in the stripe of the blocks that are missing (receivedata.rs:570-577). -/
def erasedBlocks (r : Receiver) (i : Fin 8) (indices : List ℕ) : Option (List ℕ) :=
  indices.zipIdx.foldlM (fun erased (gi, j) => do
    if ← Bitmap.bitIsSet (r.slices i).retransmitMap gi then some erased
    else some (erased ++ [j])) []

/-- One turn of the stripe loop of `try_fec_recover` (receivedata.rs:561-628). -/
def recoverStripe (i : Fin 8) (blocksInSlice : ℕ) (r : Receiver) (stripe : ℕ) : Option Receiver := do
  let slice := r.slices i
  let indices := stripeIndices blocksInSlice slice.fecStripes stripe
  let erased ← erasedBlocks r i indices
  if erased = [] then some r
  else
    let sel := selectFec slice stripe
    if sel.length < erased.length then some r
    else do
      let sel := sel.take erased.length
      let blocks ← stripeBlocks r i indices
      let (ok, blocks) ← Fec.fecDecode r.blockSize blocks (sel.map (·.2)) (sel.map (·.1)) erased
      if ok then
        erased.foldlM (fun r ej => do storeBlock r i (← indices[ej]?) (← blocks[ej]?)) r
      else some r

/-- `try_fec_recover` (receivedata.rs:542-628). -/
def tryFecRecover (r : Receiver) (i : Fin 8) : Option Receiver := do
  let blocks ← r.blocksInSlice (r.slices i).bytes
  if (r.slices i).fecStripes = 0 then some r
  else do
    let r ← (List.range (r.slices i).fecStripes).foldlM (recoverStripe i blocks) r
    if (r.slices i).dataBlocksTransferred ≥ blocks then some { r with phase := .completing i }
    else some r

/-- `check_slice_complete` (receivedata.rs:514-540). -/
def checkSliceComplete (r : Receiver) (i : Fin 8) : Option Receiver :=
  let slice := r.slices i
  if slice.bytesKnown = false ∨ slice.bytes = 0 then some r
  else do
    let blocks ← r.blocksInSlice slice.bytes
    if slice.dataBlocksTransferred ≥ blocks then some { r with phase := .completing i }
    else if slice.fecStripes > 0 ∧ slice.fecBlocks ≠ []
        ∧ slice.fecBlocks.length ≥ blocks - slice.dataBlocksTransferred then
      tryFecRecover r i
    else some r

/-! ### The handlers -/

/-- `process_data_block` after the slot is known (receivedata.rs:442-471). -/
def receiveBlock (r : Receiver) (i : Fin 8) (msg : DataBlock) (payload : List UInt8) :
    Option Receiver :=
  let slice := r.slices i
  if slice.state = .free ∨ slice.state = .done then some r
  else if msg.blockNo ≥ maxSliceSize then some r
  else if slice.retransmitMap.getLsbD msg.blockNo then some r
  else do
    let r := if msg.bytes ≠ 0 then r.learnBytes i msg.bytes else r
    let r ← storeBlock r i msg.blockNo (payload.take r.blockSize)
    checkSliceComplete r i

/-- `process_data_block` (receivedata.rs:419-472). -/
def processDataBlock (r : Receiver) (msg : DataBlock) (payload : List UInt8) : Option Receiver := do
  match findSlice r r.currentSlice msg.sliceNo with
  | some i => receiveBlock r i msg payload
  | none =>
    match ← newSlice r msg.sliceNo with
    | none => some r
    | some (i, r) => receiveBlock { r with currentSlice := some i } i msg payload

/-- `process_fec_block` after the slot is known (receivedata.rs:491-511). -/
def receiveFec (r : Receiver) (i : Fin 8) (msg : FecBlock) (payload : List UInt8) :
    Option Receiver :=
  let slice := r.slices i
  if slice.state = .done then some r
  else
    let r := if msg.bytes ≠ 0 ∧ slice.bytesKnown = false then r.learnBytes i msg.bytes else r
    let r := r.modify i fun s =>
      { s with
        fecStripes := if msg.stripes > 0 then asUsize msg.stripes else s.fecStripes
        fecBlockNos := s.fecBlockNos ++ [msg.blockNo]
        fecBlocks := s.fecBlocks ++ [payload]
        blocksTransferred := s.blocksTransferred + 1 }
    checkSliceComplete r i

/-- `process_fec_block` (receivedata.rs:474-512). -/
def processFecBlock (r : Receiver) (msg : FecBlock) (payload : List UInt8) : Option Receiver := do
  match ← openSlice r none msg.sliceNo with
  | none => some r
  | some (i, r) => receiveFec r i msg payload

/-- The blocks below `n` that are set in a map (receivedata.rs:795-801). -/
def haveMap (m : Bitmap) (n : ℕ) : Option Bitmap :=
  (List.range n).foldlM (fun map i => do
    if ← Bitmap.bitIsSet m i then Bitmap.setBit map i else some map) 0

/-- `process_reqack` after the slot is known (receivedata.rs:758-811). -/
def answerReqack (r : Receiver) (i : Fin 8) (msg : Reqack) : Option Receiver := do
  let r := r.learnBytes i msg.bytes
  let blocks ← r.blocksInSlice (r.slices i).bytes
  if (r.slices i).dataBlocksTransferred ≥ blocks then
    some { r.emit (.ok msg.sliceNo) with phase := .completing i }
  else do
    let map ← haveMap (r.slices i).retransmitMap blocks
    some (r.emit (.retransmit msg.sliceNo msg.rxmit map))

/-- `process_reqack` (receivedata.rs:712-812). -/
def processReqack (r : Receiver) (msg : Reqack) : Option Receiver := do
  match findSlice r none msg.sliceNo with
  | some i => answerReqack r i msg
  | none =>
    if r.completed msg.sliceNo then some (r.emit (.ok msg.sliceNo))
    else
      match ← newSlice r msg.sliceNo with
      | none => some (r.emit (.ok msg.sliceNo))
      | some (i, r) => answerReqack r i msg

/-- `completed_slices.resize(..)` and the assignment (receivedata.rs:650-655). -/
def markCompleted (completedSlices : List Bool) (n : ℕ) : List Bool :=
  (completedSlices ++ List.replicate (n + 1 - completedSlices.length) false).set n true

/-- The bytes of a completed slice go to the writer, or the end is marked
(receivedata.rs:656-682). -/
def deliver (r : Receiver) (sliceNo : ℤ) (bytes : ℕ) : Option Receiver :=
  if bytes > 0 then do
    let freeMemQueue ← r.fifo.freeMemQueue.consumed bytes
    let data ← r.fifo.data.produce bytes
    some { r with fifo.freeMemQueue := freeMemQueue, fifo.data := data }
  else if (List.range sliceNo.toNat).all fun j => r.completedSlices.getD j false then
    some { r with fifo.data := r.fifo.data.produceEnd }
  else some { r with endMarkerSeen := true }

/-- `complete_slice` (receivedata.rs:630-690). -/
def completeSlice (r : Receiver) (i : Fin 8) : Option Receiver := do
  let slice := r.slices i
  if slice.state = .done then some r
  -- the record cannot be resized to a negative slice number
  else if slice.sliceNo < 0 then none
  else do
    let r := ({ r with completedSlices := markCompleted r.completedSlices slice.sliceNo.toNat }.modify i
      fun s => { s with state := .done }).emit (.completed slice.sliceNo slice.bytes)
    let r ← deliver r slice.sliceNo slice.bytes
    some (r.emit (.ok slice.sliceNo))

/-! ### The main loop and the writer -/

/-- The dispatch on the opcode (receivedata.rs:201-260); a handler that does not call
`complete_slice` is followed by the scan. -/
def dispatch (r : Receiver) : Datagram → Option Receiver
  | .data msg payload => processDataBlock { r with phase := .scanning } msg payload
  | .fec msg payload => processFecBlock { r with phase := .scanning } msg payload
  | .reqack msg => processReqack { r with phase := .scanning } msg
  | .skipped => some r
  | .unexpected => some { r with phase := .scanning }

inductive Action where
  /-- One turn of the loop over `late_slices` (receivedata.rs:114-133). -/
  | seed
  /-- The drain deadline has passed at the top of the main loop (receivedata.rs:159-163). -/
  | expire (now : ℕ)
  /-- A datagram arrives (receivedata.rs:165-260). -/
  | receive (top now : ℕ) (d : Datagram)
  /-- The handler calls `complete_slice`. -/
  | complete
  /-- The scan for the end marker (receivedata.rs:262-273). -/
  | scan (now : ℕ)
  /-- The writer takes bytes out of the ring and writes them (diskio.rs:308-320). -/
  | write
  /-- The writer gives the memory back, in two steps (diskio.rs:321-324). -/
  | writeConsumed
  | writeProduced

def seedSlice (r : Receiver) : Option Receiver :=
  match r.phase with
  | .seeding [] => some { r with phase := .polling }
  | .seeding ((sliceNo, bytes, _) :: rest) =>
    (openSlice r none sliceNo).map fun
      | none => { r with phase := .seeding rest }
      | some (i, r) => { r.learnBytes i bytes with phase := .seeding rest }
  | _ => none

def receiveDatagram (r : Receiver) (top now : ℕ) (d : Datagram) : Option Receiver :=
  if r.phase = .polling ∧ ∀ deadline ∈ r.drainDeadline, top < deadline then
    dispatch (if r.endReached then { r with drainDeadline := some (now + r.exitWait) } else r) d
  else none

def scanEnd (r : Receiver) (now : ℕ) : Receiver :=
  if r.endReached then { r with phase := .polling }
  else if (List.finRange 8).any fun i =>
      decide ((r.slices i).state = .done ∧ (r.slices i).bytes = 0) then
    { r with phase := .polling, endReached := true, drainDeadline := some (now + r.exitWait) }
  else { r with phase := .polling }

/-- The writer's loop body up to `write_all` (diskio.rs:308-320). -/
def writeBlock (r : Receiver) : Option Receiver := do
  let pos := r.fifo.data.getConsumerPosition
  let bytes ← r.fifo.data.consumeContiguousMinAmount ioBlockSize
  if bytes = 0 then some { r with writer := .returned }
  else do
    let remainder := (pos + bytes) % ioBlockSize
    let bytes := if pos + bytes ≠ r.fifo.data.size ∧ bytes > remainder ∧ remainder ≠ 0
      then bytes - remainder else bytes
    let buf ← r.fifo.readAt pos bytes
    some { r with writer := .written bytes, output := r.output ++ buf }

def step (r : Receiver) : Action → Option Receiver
  | .seed => seedSlice r
  | .expire now =>
    if r.phase = .polling ∧ ∃ deadline ∈ r.drainDeadline, deadline ≤ now then
      some { r with phase := .returned }
    else none
  | .receive top now d => receiveDatagram r top now d
  | .complete =>
    match r.phase with
    | .completing i => (completeSlice r i).map fun r => { r with phase := .scanning }
    | _ => none
  | .scan now => if r.phase = .scanning then some (scanEnd r now) else none
  | .write => if r.writer = .waiting then writeBlock r else none
  | .writeConsumed =>
    match r.writer with
    | .written bytes => (r.fifo.data.consumed bytes).map fun data =>
      { r with fifo.data := data, writer := .consumed bytes }
    | _ => none
  | .writeProduced =>
    match r.writer with
    | .consumed bytes => (r.fifo.freeMemQueue.produce bytes).map fun freeMemQueue =>
      { r with fifo.freeMemQueue := freeMemQueue, writer := .waiting }
    | _ => none

end Udpcast.ReceiveData
