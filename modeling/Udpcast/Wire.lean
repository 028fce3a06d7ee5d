import Udpcast.Lib.Bytes
import Udpcast.SendData.Config

/-!
# The messages on the wire (protocol.rs)

Every message has a layout of big-endian fields after its opcode, and is read by one of four
dispatchers: the return channel and the negotiation of the sender, the negotiation and the main
loop of the receiver.  Two fields are narrower on the wire than in memory: the block size of a
HELLO and the stripes of a FEC packet are `i16`.
-/

namespace Udpcast

open Bytes SendData

/-! ### Opcodes (protocol.rs:17-35) -/

def cmdOk : ℕ := 0
def cmdRetransmit : ℕ := 1
def cmdGo : ℕ := 2
def cmdConnectReq : ℕ := 3
def cmdDisconnect : ℕ := 4
def cmdReqack : ℕ := 6
def cmdConnectReply : ℕ := 7
def cmdData : ℕ := 8
def cmdFec : ℕ := 9
def cmdHelloNew : ℕ := 10
def cmdHelloStreaming : ℕ := 11
def cmdHello : ℕ := 0x0500

/-- The opcodes of a HELLO. -/
inductive HelloOpcode where
  | new
  | streaming
  | old
  deriving DecidableEq

def HelloOpcode.code : HelloOpcode → ℕ
  | .new => cmdHelloNew
  | .streaming => cmdHelloStreaming
  | .old => cmdHello

/-! ### Layouts -/

/-- A value of type `i32`, and a value of type `i16`. -/
def IsI32 (x : ℤ) : Prop := -2 ^ 31 ≤ x ∧ x < 2 ^ 31
def IsI16 (x : ℤ) : Prop := -2 ^ 15 ≤ x ∧ x < 2 ^ 15

instance (x : ℤ) : Decidable (IsI32 x) := inferInstanceAs (Decidable (_ ∧ _))
instance (x : ℤ) : Decidable (IsI16 x) := inferInstanceAs (Decidable (_ ∧ _))

/-- The 128 bytes of a map: bit `i` is bit `i % 8` of byte `i / 8`. -/
def Bitmap.toBytes (m : Bitmap) : List UInt8 := (toBe 128 m.toNat).reverse
def Bitmap.ofBytes (l : List UInt8) : Bitmap := BitVec.ofNat 1024 (ofBe l.reverse)

/-- Two bytes that are not read. -/
def reserved : List UInt8 := toBe 2 0

/-- The opcode and the two reserved bytes. -/
def header (opcode : ℕ) : List UInt8 := toBe 2 opcode ++ reserved

/-- `OkMsg` (protocol.rs:87-109). -/
structure OkMsg where
  sliceNo : ℤ

def OkMsg.pack (m : OkMsg) : List UInt8 := header cmdOk ++ toBeInt 4 m.sliceNo
def OkMsg.unpack (buf : List UInt8) : OkMsg := ⟨ofBeInt 4 (field buf 4 8)⟩

/-- `Retransmit` (protocol.rs:111-140). -/
structure Retransmit where
  sliceNo : ℤ
  rxmit : ℤ
  map : Bitmap

def Retransmit.pack (m : Retransmit) : List UInt8 :=
  header cmdRetransmit ++ toBeInt 4 m.sliceNo ++ toBeInt 4 m.rxmit ++ m.map.toBytes
def Retransmit.unpack (buf : List UInt8) : Retransmit :=
  ⟨ofBeInt 4 (field buf 4 8), ofBeInt 4 (field buf 8 12), Bitmap.ofBytes (field buf 12 140)⟩

/-- `ConnectReq` (protocol.rs:142-165). -/
structure ConnectReq where
  capabilities : ℕ
  rcvbuf : ℕ

def ConnectReq.pack (m : ConnectReq) : List UInt8 :=
  header cmdConnectReq ++ toBe 4 m.capabilities ++ toBe 4 m.rcvbuf
def ConnectReq.unpack (buf : List UInt8) : ConnectReq := ⟨ofBe (field buf 4 8), ofBe (field buf 8 12)⟩

/-- `ConnectReply` (protocol.rs:167-200). -/
structure ConnectReply where
  clNr : ℤ
  blockSize : ℤ
  capabilities : ℕ
  mcast : List UInt8

def ConnectReply.pack (m : ConnectReply) : List UInt8 :=
  header cmdConnectReply ++ toBeInt 4 m.clNr ++ toBeInt 4 m.blockSize ++ toBe 4 m.capabilities
    ++ m.mcast
def ConnectReply.unpack (buf : List UInt8) : ConnectReply :=
  ⟨ofBeInt 4 (field buf 4 8), ofBeInt 4 (field buf 8 12), ofBe (field buf 12 16), field buf 16 32⟩

/-- `Hello` (protocol.rs:202-231), with two bytes of padding. -/
structure Hello where
  capabilities : ℕ
  mcast : List UInt8
  blockSize : ℤ

def Hello.pack (m : Hello) (opcode : ℕ) : List UInt8 :=
  header opcode ++ toBe 4 m.capabilities ++ m.mcast ++ toBeInt 2 (asI16 m.blockSize) ++ reserved
def Hello.unpack (buf : List UInt8) : Hello :=
  ⟨ofBe (field buf 4 8), field buf 8 24, ofBeInt 2 (field buf 24 26)⟩

/-- `pack_go` and `pack_disconnect` (protocol.rs:233-245). -/
def packGo : List UInt8 := header cmdGo
def packDisconnect : List UInt8 := header cmdDisconnect

/-- `DataBlock::pack` and `DataBlock::unpack` (protocol.rs:259-275). -/
def DataBlock.pack (m : DataBlock) : List UInt8 :=
  header cmdData ++ toBeInt 4 m.sliceNo ++ toBe 2 m.blockNo ++ reserved ++ toBeInt 4 m.bytes
def DataBlock.unpack (buf : List UInt8) : DataBlock :=
  ⟨ofBeInt 4 (field buf 4 8), ofBe (field buf 8 10), ofBeInt 4 (field buf 12 16)⟩

/-- `FecBlock::pack` and `FecBlock::unpack` (protocol.rs:286-305); the stripes stand in the
reserved bytes. -/
def FecBlock.pack (m : FecBlock) : List UInt8 :=
  toBe 2 cmdFec ++ toBeInt 2 (asI16 m.stripes) ++ toBeInt 4 m.sliceNo ++ toBe 2 m.blockNo ++ reserved
    ++ toBeInt 4 m.bytes
def FecBlock.unpack (buf : List UInt8) : FecBlock :=
  ⟨ofBeInt 2 (field buf 2 4), ofBeInt 4 (field buf 4 8), ofBe (field buf 8 10),
    ofBeInt 4 (field buf 12 16)⟩

/-- `Reqack::pack` and `Reqack::unpack` (protocol.rs:315-331). -/
def Reqack.pack (m : Reqack) : List UInt8 :=
  header cmdReqack ++ toBeInt 4 m.sliceNo ++ toBeInt 4 m.bytes ++ toBeInt 4 m.rxmit
def Reqack.unpack (buf : List UInt8) : Reqack :=
  ⟨ofBeInt 4 (field buf 4 8), ofBeInt 4 (field buf 8 12), ofBeInt 4 (field buf 12 16)⟩

/-- A message of either side. -/
inductive Message where
  | ok (m : OkMsg)
  | retransmit (m : Retransmit)
  | go
  | connectReq (m : ConnectReq)
  | disconnect
  | reqack (m : Reqack)
  | connectReply (m : ConnectReply)
  | data (m : DataBlock)
  | fec (m : FecBlock)
  | hello (opcode : HelloOpcode) (m : Hello)

def Message.pack : Message → List UInt8
  | .ok m => m.pack
  | .retransmit m => m.pack
  | .go => packGo
  | .connectReq m => m.pack
  | .disconnect => packDisconnect
  | .reqack m => m.pack
  | .connectReply m => m.pack
  | .data m => m.pack
  | .fec m => m.pack
  | .hello opcode m => m.pack opcode.code

/-! ### Dispatchers

`buf` is the whole buffer, `n` the number of bytes that have been received into it. -/

/-- `u16::from_be_bytes([buf[0], buf[1]])` -/
def opcodeOf (buf : List UInt8) : ℕ := ofBe (field buf 0 2)

/-- The thread of the return channel (senddata.rs:250-295). -/
def readReturnChannel (buf : List UInt8) (n : ℕ) : Option Message :=
  if n < 4 then none
  else if opcodeOf buf = cmdOk then if n < 8 then none else some (.ok (.unpack buf))
  else if opcodeOf buf = cmdRetransmit then if n < 140 then none else some (.retransmit (.unpack buf))
  else if opcodeOf buf = cmdDisconnect then some .disconnect
  else none

/-- `handle_receiver_msg` (negotiate.rs:375-400). -/
def readNegotiation (buf : List UInt8) (n : ℕ) : Option Message :=
  if n < 4 then none
  else if opcodeOf buf = cmdConnectReq then if n < 12 then none else some (.connectReq (.unpack buf))
  else if opcodeOf buf = cmdGo then some .go
  else if opcodeOf buf = cmdDisconnect then some .disconnect
  else none

/-- The HELLO with an opcode. -/
def helloOpcode (opcode : ℕ) : Option HelloOpcode :=
  if opcode = cmdHelloStreaming then some .streaming
  else if opcode = cmdHelloNew then some .new
  else if opcode = cmdHello then some .old
  else none

/-- The negotiation of the receiver (receiver.rs:466-590).  What it overhears of a transfer is not
checked for its length. -/
def readReceiverNegotiation (buf : List UInt8) (n : ℕ) : Option Message :=
  if n < 4 then none
  else if opcodeOf buf = cmdConnectReply then
    if n < 32 then none else some (.connectReply (.unpack buf))
  else if opcodeOf buf = cmdReqack then some (.reqack (.unpack buf))
  else if opcodeOf buf = cmdData then some (.data (.unpack buf))
  else if opcodeOf buf = cmdFec then some (.fec (.unpack buf))
  else
    (helloOpcode (opcodeOf buf)).bind fun opcode =>
      if n ≥ 28 then some (.hello opcode (.unpack buf)) else none

/-- The main loop of the receiver (receivedata.rs:188-260), with the payload. -/
def readDatagram (buf : List UInt8) (n : ℕ) : Datagram :=
  if n < 4 then .skipped
  else if opcodeOf buf = cmdData then
    if n < 16 then .skipped else .data (.unpack buf) (field buf 16 n)
  else if opcodeOf buf = cmdFec then
    if n < 16 then .skipped else .fec (.unpack buf) (field buf 16 n)
  else if opcodeOf buf = cmdReqack then if n < 16 then .skipped else .reqack (.unpack buf)
  else if (helloOpcode (opcodeOf buf)).isSome then .skipped
  else if opcodeOf buf = cmdConnectReply then .skipped
  else .unexpected

def readReceiver (buf : List UInt8) (n : ℕ) : Option Message :=
  match readDatagram buf n with
  | .data m _ => some (.data m)
  | .fec m _ => some (.fec m)
  | .reqack m => some (.reqack m)
  | .skipped => none
  | .unexpected => none

/-- Who reads a message. -/
inductive Peer where
  | returnChannel
  | negotiation
  | receiverNegotiation
  | receiver

def Peer.read : Peer → List UInt8 → ℕ → Option Message
  | .returnChannel => readReturnChannel
  | .negotiation => readNegotiation
  | .receiverNegotiation => readReceiverNegotiation
  | .receiver => readReceiver

/-- The size of its buffer (senddata.rs:222, negotiate.rs:329, receiver.rs:418, receivedata.rs:156). -/
def Peer.bufSize : Peer → ℕ
  | .returnChannel => 512
  | .negotiation => 256
  | .receiverNegotiation => 4096
  | .receiver => 4096

/-- The messages a peer is sent. -/
def Peer.Reads : Peer → Message → Prop
  | .returnChannel, .ok _ | .returnChannel, .retransmit _ | .returnChannel, .disconnect => True
  | .negotiation, .connectReq _ | .negotiation, .go | .negotiation, .disconnect => True
  | .receiverNegotiation, .connectReply _ | .receiverNegotiation, .hello _ _ => True
  | .receiverNegotiation, .reqack _ | .receiverNegotiation, .data _ => True
  | .receiverNegotiation, .fec _ => True
  | .receiver, .data _ | .receiver, .fec _ | .receiver, .reqack _ => True
  | _, _ => False

/-! ### Field values -/

/-- The fields are values of their types. -/
def Message.Typed : Message → Prop
  | .ok m => IsI32 m.sliceNo
  | .retransmit m => IsI32 m.sliceNo ∧ IsI32 m.rxmit
  | .go => True
  | .connectReq m => m.capabilities < 2 ^ 32 ∧ m.rcvbuf < 2 ^ 32
  | .disconnect => True
  | .reqack m => IsI32 m.sliceNo ∧ IsI32 m.bytes ∧ IsI32 m.rxmit
  | .connectReply m => IsI32 m.clNr ∧ IsI32 m.blockSize ∧ m.capabilities < 2 ^ 32 ∧
      m.mcast.length = 16
  | .data m => IsI32 m.sliceNo ∧ m.blockNo < 2 ^ 16 ∧ IsI32 m.bytes
  | .fec m => IsI32 m.stripes ∧ IsI32 m.sliceNo ∧ m.blockNo < 2 ^ 16 ∧ IsI32 m.bytes
  | .hello _ m => m.capabilities < 2 ^ 32 ∧ m.mcast.length = 16 ∧ IsI32 m.blockSize

theorem typed_data {s n : ℤ} {k : ℕ} (hs : IsI32 s) (hk : k < 2 ^ 16) (hn : IsI32 n) :
    (Message.data ⟨s, k, n⟩).Typed := ⟨hs, hk, hn⟩

/-- The block size of a HELLO and the stripes of a FEC packet fit their fields. -/
def Message.FitsWire : Message → Prop
  | .hello _ m => IsI16 m.blockSize
  | .fec m => IsI16 m.stripes
  | _ => True

theorem bmod_bounds (x : ℤ) {m : ℕ} (hm : 0 < m) :
    -(m : ℤ) ≤ 2 * Int.bmod x m ∧ 2 * Int.bmod x m < m := by
  have hlo := Int.le_bmod (x := x) hm
  have hhi := Int.bmod_lt (x := x) hm
  constructor
  · omega
  · omega

theorem isI32_asI32 (n : ℕ) : IsI32 (asI32 n) := by
  obtain ⟨hlo, hhi⟩ : -((2 ^ 32 : ℕ) : ℤ) ≤ 2 * asI32 n ∧ 2 * asI32 n < (2 ^ 32 : ℕ) :=
    bmod_bounds n (by norm_num)
  push_cast at hlo hhi
  exact ⟨by linarith, by linarith⟩

theorem bmod_of_isI32 {x : ℤ} (h : IsI32 x) : Int.bmod x (256 ^ 4) = x :=
  Int.bmod_eq_of_le (by have := h.1; omega) (by have := h.2; omega)

theorem ofBeInt_toBeInt_i32 {x : ℤ} (h : IsI32 x) : ofBeInt 4 (toBeInt 4 x) = x := by
  rw [ofBeInt_toBeInt, bmod_of_isI32 h]

theorem ofBe_toBe_u32 {n : ℕ} (h : n < 2 ^ 32) : ofBe (toBe 4 n) = n := ofBe_toBe_of_lt h

theorem ofBe_toBe_u16 {n : ℕ} (h : n < 2 ^ 16) : ofBe (toBe 2 n) = n := ofBe_toBe_of_lt h

/-- What an `i32` becomes in a field of type `i16`. -/
theorem ofBeInt_toBeInt_asI16 (x : ℤ) : ofBeInt 2 (toBeInt 2 (asI16 x)) = asI16 x := by
  rw [ofBeInt_toBeInt, asI16]
  exact Int.bmod_bmod

theorem asI16_eq_iff {x : ℤ} : asI16 x = x ↔ IsI16 x := by
  constructor
  · intro h
    obtain ⟨hlo, hhi⟩ := bmod_bounds x (m := 2 ^ 16) (by decide)
    rw [← asI16, h] at hlo hhi
    push_cast at hlo hhi
    exact ⟨by linarith, by linarith⟩
  · intro h
    exact Int.bmod_eq_of_le (by have := h.1; omega) (by have := h.2; omega)

@[simp] theorem Bitmap.length_toBytes (m : Bitmap) : m.toBytes.length = 128 := by
  rw [Bitmap.toBytes, List.length_reverse, length_toBe]

theorem toNat_lt_pow {w k : ℕ} (hw : w = 8 * k) (m : BitVec w) : m.toNat < 256 ^ k := by
  have hpow : 2 ^ w = 256 ^ k := by
    rw [hw, pow_mul]
    rfl
  exact lt_of_lt_of_eq m.isLt hpow

theorem Bitmap.ofBytes_toBytes (m : Bitmap) : Bitmap.ofBytes m.toBytes = m := by
  have hlt := toNat_lt_pow (k := 128) rfl m
  rw [Bitmap.ofBytes, Bitmap.toBytes, List.reverse_reverse, ofBe_toBe_of_lt hlt, BitVec.ofNat_toNat,
    BitVec.setWidth_eq]

@[simp] theorem length_reserved : reserved.length = 2 := length_toBe ..

@[simp] theorem length_header (opcode : ℕ) : (header opcode).length = 4 := by
  rw [header, List.length_append, length_toBe, length_reserved]

section RoundTrip

variable {s : List UInt8}

theorem OkMsg.unpack_pack {m : OkMsg} (h : IsI32 m.sliceNo) : OkMsg.unpack (m.pack ++ s) = m := by
  simp [OkMsg.unpack, OkMsg.pack, field_skip, field_head, ofBeInt_toBeInt_i32 h]

theorem Retransmit.unpack_pack {m : Retransmit} (h : IsI32 m.sliceNo) (hr : IsI32 m.rxmit) :
    Retransmit.unpack (m.pack ++ s) = m := by
  simp [Retransmit.unpack, Retransmit.pack, field_skip, field_head, ofBeInt_toBeInt_i32 h,
    ofBeInt_toBeInt_i32 hr, Bitmap.ofBytes_toBytes]

theorem ConnectReq.unpack_pack {m : ConnectReq} (h : m.capabilities < 2 ^ 32) (hr : m.rcvbuf < 2 ^ 32) :
    ConnectReq.unpack (m.pack ++ s) = m := by
  simp [ConnectReq.unpack, ConnectReq.pack, field_skip, field_head, ofBe_toBe_u32 h, ofBe_toBe_u32 hr]

theorem ConnectReply.unpack_pack {m : ConnectReply} (h : IsI32 m.clNr) (hb : IsI32 m.blockSize)
    (hc : m.capabilities < 2 ^ 32) (hm : m.mcast.length = 16) :
    ConnectReply.unpack (m.pack ++ s) = m := by
  simp [ConnectReply.unpack, ConnectReply.pack, field_skip, field_head, ofBeInt_toBeInt_i32 h,
    ofBeInt_toBeInt_i32 hb, ofBe_toBe_u32 hc, hm]

theorem Hello.unpack_pack {m : Hello} (opcode : ℕ) (hc : m.capabilities < 2 ^ 32)
    (hm : m.mcast.length = 16) :
    Hello.unpack (m.pack opcode ++ s) = { m with blockSize := asI16 m.blockSize } := by
  simp [Hello.unpack, Hello.pack, field_skip, field_head, ofBe_toBe_u32 hc, hm,
    ofBeInt_toBeInt_asI16]

theorem DataBlock.unpack_pack {m : DataBlock} (h : IsI32 m.sliceNo) (hb : m.blockNo < 2 ^ 16)
    (hn : IsI32 m.bytes) : DataBlock.unpack (m.pack ++ s) = m := by
  simp [DataBlock.unpack, DataBlock.pack, field_skip, field_head, ofBeInt_toBeInt_i32 h,
    ofBe_toBe_u16 hb, ofBeInt_toBeInt_i32 hn]

theorem FecBlock.unpack_pack {m : FecBlock} (h : IsI32 m.sliceNo) (hb : m.blockNo < 2 ^ 16)
    (hn : IsI32 m.bytes) :
    FecBlock.unpack (m.pack ++ s) = { m with stripes := asI16 m.stripes } := by
  simp [FecBlock.unpack, FecBlock.pack, field_skip, field_head, ofBeInt_toBeInt_i32 h,
    ofBe_toBe_u16 hb, ofBeInt_toBeInt_i32 hn, ofBeInt_toBeInt_asI16]

theorem Reqack.unpack_pack {m : Reqack} (h : IsI32 m.sliceNo) (hn : IsI32 m.bytes)
    (hr : IsI32 m.rxmit) : Reqack.unpack (m.pack ++ s) = m := by
  simp [Reqack.unpack, Reqack.pack, field_skip, field_head, ofBeInt_toBeInt_i32 h,
    ofBeInt_toBeInt_i32 hn, ofBeInt_toBeInt_i32 hr]

end RoundTrip

/-! ### Dispatch -/

def Message.opcode : Message → ℕ
  | .ok _ => cmdOk
  | .retransmit _ => cmdRetransmit
  | .go => cmdGo
  | .connectReq _ => cmdConnectReq
  | .disconnect => cmdDisconnect
  | .reqack _ => cmdReqack
  | .connectReply _ => cmdConnectReply
  | .data _ => cmdData
  | .fec _ => cmdFec
  | .hello opcode _ => opcode.code

/-- The length of a message without a payload. -/
def Message.size : Message → ℕ
  | .ok _ => 8
  | .retransmit _ => 140
  | .go => 4
  | .connectReq _ => 12
  | .disconnect => 4
  | .reqack _ => 16
  | .connectReply _ => 32
  | .data _ => 16
  | .fec _ => 16
  | .hello _ _ => 28

theorem Message.length_pack {m : Message} (h : m.Typed) : m.pack.length = m.size := by
  cases m with
  | ok m => simp [Message.pack, OkMsg.pack, Message.size]
  | retransmit m => simp [Message.pack, Retransmit.pack, Message.size]
  | go => simp [Message.pack, packGo, Message.size]
  | connectReq m => simp [Message.pack, ConnectReq.pack, Message.size]
  | disconnect => simp [Message.pack, packDisconnect, Message.size]
  | reqack m => simp [Message.pack, Reqack.pack, Message.size]
  | connectReply m => simp [Message.pack, ConnectReply.pack, Message.size, h.2.2.2]
  | data m => simp [Message.pack, DataBlock.pack, Message.size]
  | fec m => simp [Message.pack, FecBlock.pack, Message.size]
  | hello opcode m => simp [Message.pack, Hello.pack, Message.size, h.2.1]

theorem HelloOpcode.code_lt (opcode : HelloOpcode) : opcode.code < 2 ^ 16 := by
  cases opcode with
  | new => decide
  | streaming => decide
  | old => decide

theorem opcodeOf_append {opcode : ℕ} (h : opcode < 2 ^ 16) (s : List UInt8) :
    opcodeOf (toBe 2 opcode ++ s) = opcode := by
  rw [opcodeOf, field_head (length_toBe ..), ofBe_toBe_u16 h]

theorem opcodeOf_pack (m : Message) (s : List UInt8) : opcodeOf (m.pack ++ s) = m.opcode := by
  cases m with
  | ok m =>
    simp only [Message.pack, OkMsg.pack, header, List.append_assoc]
    exact opcodeOf_append (by decide) _
  | retransmit m =>
    simp only [Message.pack, Retransmit.pack, header, List.append_assoc]
    exact opcodeOf_append (by decide) _
  | go =>
    simp only [Message.pack, packGo, header, List.append_assoc]
    exact opcodeOf_append (by decide) _
  | connectReq m =>
    simp only [Message.pack, ConnectReq.pack, header, List.append_assoc]
    exact opcodeOf_append (by decide) _
  | disconnect =>
    simp only [Message.pack, packDisconnect, header, List.append_assoc]
    exact opcodeOf_append (by decide) _
  | reqack m =>
    simp only [Message.pack, Reqack.pack, header, List.append_assoc]
    exact opcodeOf_append (by decide) _
  | connectReply m =>
    simp only [Message.pack, ConnectReply.pack, header, List.append_assoc]
    exact opcodeOf_append (by decide) _
  | data m =>
    simp only [Message.pack, DataBlock.pack, header, List.append_assoc]
    exact opcodeOf_append (by decide) _
  | fec m =>
    simp only [Message.pack, FecBlock.pack, List.append_assoc]
    exact opcodeOf_append (by decide) _
  | hello opcode m =>
    simp only [Message.pack, Hello.pack, header, List.append_assoc]
    exact opcodeOf_append opcode.code_lt _

/-- A message as its reader gets it. -/
def Message.wired : Message → Message
  | .hello opcode m => .hello opcode { m with blockSize := asI16 m.blockSize }
  | .fec m => .fec { m with stripes := asI16 m.stripes }
  | m => m

theorem wired_eq_iff (m : Message) : m.wired = m ↔ m.FitsWire := by
  cases m with
  | hello opcode m =>
    rw [Message.wired, Message.FitsWire, ← asI16_eq_iff, Message.hello.injEq, Hello.mk.injEq]
    simp
  | fec m =>
    rw [Message.wired, Message.FitsWire, ← asI16_eq_iff, Message.fec.injEq, FecBlock.mk.injEq]
    simp
  | _ => exact ⟨fun _ => trivial, fun _ => rfl⟩

theorem helloOpcode_code (opcode : HelloOpcode) : helloOpcode opcode.code = some opcode := by
  cases opcode with
  | new => rfl
  | streaming => rfl
  | old => rfl

section Read

variable {n : ℕ} {s : List UInt8}

theorem readReturnChannel_pack {m : Message} (hp : Peer.returnChannel.Reads m) (ht : m.Typed)
    (hn : m.size ≤ n) : readReturnChannel (m.pack ++ s) n = some m.wired := by
  rw [readReturnChannel, opcodeOf_pack]
  cases m with
  | ok m =>
    have h8 : 8 ≤ n := hn
    simp [Message.opcode, Message.pack, Message.wired, OkMsg.unpack_pack ht, show ¬ n < 4 by omega, h8]
  | retransmit m =>
    have h140 : 140 ≤ n := hn
    simp [Message.opcode, Message.pack, Message.wired, Retransmit.unpack_pack ht.1 ht.2, cmdOk,
      cmdRetransmit, show ¬ n < 4 by omega, h140]
  | disconnect =>
    have h4 : 4 ≤ n := hn
    simp [Message.opcode, Message.wired, cmdOk, cmdRetransmit, cmdDisconnect, h4]
  | _ => exact hp.elim

theorem readNegotiation_pack {m : Message} (hp : Peer.negotiation.Reads m) (ht : m.Typed)
    (hn : m.size ≤ n) : readNegotiation (m.pack ++ s) n = some m.wired := by
  rw [readNegotiation, opcodeOf_pack]
  cases m with
  | connectReq m =>
    have h12 : 12 ≤ n := hn
    simp [Message.opcode, Message.pack, Message.wired, ConnectReq.unpack_pack ht.1 ht.2,
      show ¬ n < 4 by omega, h12]
  | go =>
    have h4 : 4 ≤ n := hn
    simp [Message.opcode, Message.wired, cmdConnectReq, cmdGo, h4]
  | disconnect =>
    have h4 : 4 ≤ n := hn
    simp [Message.opcode, Message.wired, cmdConnectReq, cmdGo, cmdDisconnect, h4]
  | _ => exact hp.elim

theorem readReceiverNegotiation_pack {m : Message} (hp : Peer.receiverNegotiation.Reads m)
    (ht : m.Typed) (hn : m.size ≤ n) :
    readReceiverNegotiation (m.pack ++ s) n = some m.wired := by
  rw [readReceiverNegotiation, opcodeOf_pack]
  cases m with
  | connectReply m =>
    have h32 : 32 ≤ n := hn
    simp [Message.opcode, Message.pack, Message.wired,
      ConnectReply.unpack_pack ht.1 ht.2.1 ht.2.2.1 ht.2.2.2, show ¬ n < 4 by omega, h32]
  | hello opcode m =>
    have h28 : 28 ≤ n := hn
    have hother : opcode.code ≠ cmdConnectReply ∧ opcode.code ≠ cmdReqack ∧ opcode.code ≠ cmdData ∧
        opcode.code ≠ cmdFec := by
      cases opcode with
      | new => decide
      | streaming => decide
      | old => decide
    simp [Message.opcode, Message.pack, Message.wired, helloOpcode_code, hother,
      Hello.unpack_pack opcode.code ht.1 ht.2.1, show ¬ n < 4 by omega, h28]
  | reqack m =>
    have h16 : 16 ≤ n := hn
    simp [Message.opcode, Message.pack, Message.wired, Reqack.unpack_pack ht.1 ht.2.1 ht.2.2,
      cmdConnectReply, cmdReqack, show ¬ n < 4 by omega]
  | data m =>
    have h16 : 16 ≤ n := hn
    simp [Message.opcode, Message.pack, Message.wired, DataBlock.unpack_pack ht.1 ht.2.1 ht.2.2,
      cmdConnectReply, cmdReqack, cmdData, show ¬ n < 4 by omega]
  | fec m =>
    have h16 : 16 ≤ n := hn
    simp [Message.opcode, Message.pack, Message.wired, FecBlock.unpack_pack ht.2.1 ht.2.2.1 ht.2.2.2,
      cmdConnectReply, cmdReqack, cmdData, cmdFec, show ¬ n < 4 by omega]
  | _ => exact hp.elim

theorem readDatagram_data {m : DataBlock} (ht : (Message.data m).Typed) (hn : 16 ≤ n) :
    readDatagram (m.pack ++ s) n = .data m (s.take (n - 16)) := by
  have hop : opcodeOf (m.pack ++ s) = cmdData := opcodeOf_pack (.data m) s
  have hlen : m.pack.length = 16 := Message.length_pack ht
  rw [readDatagram, hop, if_neg (by omega), if_pos rfl, if_neg (by omega),
    DataBlock.unpack_pack ht.1 ht.2.1 ht.2.2, field_skip (by omega), hlen, field, List.drop_zero]

theorem readDatagram_fec {m : FecBlock} (ht : (Message.fec m).Typed) (hn : 16 ≤ n) :
    readDatagram (m.pack ++ s) n = .fec { m with stripes := asI16 m.stripes } (s.take (n - 16)) := by
  have hop : opcodeOf (m.pack ++ s) = cmdFec := opcodeOf_pack (.fec m) s
  have hlen : m.pack.length = 16 := Message.length_pack ht
  rw [readDatagram, hop, if_neg (by omega), if_neg (by decide), if_pos rfl, if_neg (by omega),
    FecBlock.unpack_pack ht.2.1 ht.2.2.1 ht.2.2.2, field_skip (by omega), hlen, field, List.drop_zero]

theorem readDatagram_reqack {m : Reqack} (ht : (Message.reqack m).Typed) (hn : 16 ≤ n) :
    readDatagram (m.pack ++ s) n = .reqack m := by
  have hop : opcodeOf (m.pack ++ s) = cmdReqack := opcodeOf_pack (.reqack m) s
  rw [readDatagram, hop, if_neg (by omega), if_neg (by decide), if_neg (by decide), if_pos rfl,
    if_neg (by omega), Reqack.unpack_pack ht.1 ht.2.1 ht.2.2]

theorem readReceiver_pack {m : Message} (hp : Peer.receiver.Reads m) (ht : m.Typed)
    (hn : m.size ≤ n) : readReceiver (m.pack ++ s) n = some m.wired := by
  cases m with
  | data m =>
    rw [readReceiver, Message.pack, readDatagram_data ht hn]
    rfl
  | fec m =>
    rw [readReceiver, Message.pack, readDatagram_fec ht hn]
    rfl
  | reqack m =>
    rw [readReceiver, Message.pack, readDatagram_reqack ht hn]
    rfl
  | _ => exact hp.elim

theorem Peer.read_pack {p : Peer} {m : Message} (hp : p.Reads m) (ht : m.Typed) (hn : m.size ≤ n) :
    p.read (m.pack ++ s) n = some m.wired := by
  cases p with
  | returnChannel => exact readReturnChannel_pack hp ht hn
  | negotiation => exact readNegotiation_pack hp ht hn
  | receiverNegotiation => exact readReceiverNegotiation_pack hp ht hn
  | receiver => exact readReceiver_pack hp ht hn

end Read

/-- The buffer of a peer holds every message it is sent. -/
theorem Peer.size_le_bufSize {p : Peer} {m : Message} (hp : p.Reads m) : m.size ≤ p.bufSize := by
  cases p with
  | returnChannel =>
    cases m with
    | ok _ | retransmit _ | disconnect => simp [Message.size, Peer.bufSize]
    | _ => exact hp.elim
  | negotiation =>
    cases m with
    | connectReq _ | go | disconnect => simp [Message.size, Peer.bufSize]
    | _ => exact hp.elim
  | receiverNegotiation =>
    cases m with
    | connectReply _ | hello _ _ | reqack _ | data _ | fec _ => simp [Message.size, Peer.bufSize]
    | _ => exact hp.elim
  | receiver =>
    cases m with
    | data _ | fec _ | reqack _ => simp [Message.size, Peer.bufSize]
    | _ => exact hp.elim

/-- A message with any payload, received into the buffer of its reader, is read as it was if, and
only if, the block size of a HELLO and the stripes of a FEC packet fit their fields. -/
theorem pack_round_trip (p : Peer) (m : Message) (hp : p.Reads m) (ht : m.Typed)
    (payload rest : List UInt8) :
    p.read ((m.pack ++ payload).take p.bufSize ++ rest) ((m.pack ++ payload).take p.bufSize).length
      = some m ↔ m.FitsWire := by
  have hlen := Message.length_pack ht
  have hfits := Peer.size_le_bufSize hp
  have hn : m.size ≤ ((m.pack ++ payload).take p.bufSize).length := by
    rw [List.length_take, List.length_append]
    omega
  have hbuf : (m.pack ++ payload).take p.bufSize ++ rest
      = m.pack ++ (payload.take (p.bufSize - m.pack.length) ++ rest) := by
    rw [List.take_append, List.take_of_length_le (by omega), List.append_assoc]
  rw [hbuf, Peer.read_pack hp ht hn, Option.some_inj, wired_eq_iff]

/-- A RETRANSMIT of slice 3. -/
theorem pack_round_trip_retransmit :
    readReturnChannel ((Retransmit.pack ⟨3, 7, 5⟩ ++ [1, 2]).take 512 ++ [9])
      ((Retransmit.pack ⟨3, 7, 5⟩ ++ [1, 2]).take 512).length = some (.retransmit ⟨3, 7, 5⟩) :=
  (pack_round_trip .returnChannel (.retransmit ⟨3, 7, 5⟩) trivial
    (by simp [Message.Typed, IsI32]) [1, 2] [9]).mpr trivial

/-- `send_hello` (senddata.rs:139-152). -/
def sendHello (c : NetConfig) (capabilities : ℕ) (mcast : List UInt8) (streaming : Bool) : Message :=
  .hello (if streaming then .streaming else .new) ⟨capabilities, mcast, asI32 c.blockSize⟩

/-- With `--blocksize 32768` the receiver reads a block size of -32768 from the HELLO. -/
theorem pack_round_trip_fails : ∃ config,
    runSender { defaultCli with blockSize := 32768 } = some config ∧
    sendHello config 9 (List.replicate 16 0) false = .hello .new ⟨9, List.replicate 16 0, 32768⟩ ∧
    readReceiverNegotiation (sendHello config 9 (List.replicate 16 0) false).pack 28
      = some (.hello .new ⟨9, List.replicate 16 0, -32768⟩) := by
  obtain ⟨config, hconfig, hblock⟩ : ∃ config,
      runSender { defaultCli with blockSize := 32768 } = some config ∧ config.blockSize = 32768 :=
    ⟨_, rfl, rfl⟩
  have hhello : sendHello config 9 (List.replicate 16 0) false
      = .hello .new ⟨9, List.replicate 16 0, 32768⟩ := by
    rw [sendHello, hblock, show asI32 32768 = 32768 by decide]
    rfl
  refine ⟨config, hconfig, hhello, ?_⟩
  have hread := readReceiverNegotiation_pack (m := .hello .new ⟨9, List.replicate 16 0, 32768⟩)
    (s := []) (n := 28) trivial (by simp [Message.Typed, IsI32]) le_rfl
  rw [List.append_nil, Message.wired, show asI16 32768 = -32768 by decide] at hread
  rw [hhello, hread]

end Udpcast
