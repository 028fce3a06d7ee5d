import Mathlib.Algebra.Group.Int.Defs
import Mathlib.Algebra.Group.Nat.Defs
import Mathlib.Data.Int.Basic
import Mathlib.Data.List.Basic

/-!
# The messages of a transfer (protocol.rs)

Fields of type `i32` are integers, fields of type `u16` natural numbers.
-/

namespace Udpcast

/-- `MAX_SLICE_SIZE`, the blocks of a slice at most, and `MAX_CLIENTS`. -/
def maxSliceSize : ℕ := 1024
def maxClients : ℕ := 1024

/-- `x as usize` of an `i32`: a negative number is sign-extended. -/
def asUsize (x : ℤ) : ℕ := (x % 2 ^ 64).toNat

/-- `DataBlock` (protocol.rs:244-248). -/
structure DataBlock where
  sliceNo : ℤ
  blockNo : ℕ
  bytes : ℤ
  deriving DecidableEq

/-- `FecBlock` (protocol.rs:270-275). -/
structure FecBlock where
  stripes : ℤ
  sliceNo : ℤ
  blockNo : ℕ
  bytes : ℤ
  deriving DecidableEq

/-- `Reqack` (protocol.rs:299-303). -/
structure Reqack where
  sliceNo : ℤ
  bytes : ℤ
  rxmit : ℤ
  deriving DecidableEq

/-- A datagram from the sender, by the opcode dispatch of the receiver (receivedata.rs:202-262):
the messages with their payload, a packet that is skipped (too short, a HELLO or a repeated
CONNECT_REPLY), and one with an unexpected opcode. -/
inductive Datagram where
  | data (msg : DataBlock) (payload : List UInt8)
  | fec (msg : FecBlock) (payload : List UInt8)
  | reqack (msg : Reqack)
  | skipped
  | unexpected
  deriving DecidableEq

/-- The slice number and the size in a datagram about a slice. -/
def Datagram.slice : Datagram → Option (ℤ × ℤ)
  | .data msg _ => some (msg.sliceNo, msg.bytes)
  | .fec msg _ => some (msg.sliceNo, msg.bytes)
  | .reqack msg => some (msg.sliceNo, msg.bytes)
  | .skipped => none
  | .unexpected => none

def Datagram.isReqack : Datagram → Bool
  | .reqack _ => true
  | _ => false

/-- The block number of a DATA packet is within a slice. -/
def Datagram.blockInRange : Datagram → Prop
  | .data msg _ => msg.blockNo < maxSliceSize
  | _ => True

/-- `stripe_indices` (senddata.rs:1026-1042, receivedata.rs:562-567): `stripe`, `stripe + stripes`,
and so on below the number of blocks. -/
def stripeIndices (blocksInSlice stripes stripe : ℕ) : List ℕ :=
  (List.range ((blocksInSlice - stripe + (stripes - 1)) / stripes)).map fun j => stripe + j * stripes

@[simp] theorem asUsize_natCast {n : ℕ} (h : n < 2 ^ 64) : asUsize n = n := by
  have hmod : (n : ℤ) % 2 ^ 64 = n := by omega
  rw [asUsize, hmod, Int.toNat_natCast]

end Udpcast
