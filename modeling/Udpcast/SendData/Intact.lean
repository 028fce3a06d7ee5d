import Udpcast.Contents
import Udpcast.SendData.Acks
import Udpcast.SendData.Cuts

/-!
# The integrity of the ring

The reader fills the ring in the order of the stream, but the memory comes back in the order in
which slices are acked.  A slice in flight keeps its bytes as long as the reader stays within one
turn of the ring behind its beginning.
-/

namespace Udpcast.SendData

open Sender

/-- The ring has the input bytes of every slice that is formed and not acked, and every DATA block
that has been sent carries the input bytes of its slice. -/
def RingIntact (x : Sender) : Prop :=
  (∀ i, (x.slices i).inFlight →
    Ring.window x.fifo.dataBufSize (x.slices i).base (x.slices i).bytes x.fifo.buffer
      = x.sliceInput (x.slices i).sliceNo) ∧
  ∀ msg payload, Datagram.data msg payload ∈ x.sent →
    payload = blockOf x.config.blockSize (x.sliceInput msg.sliceNo) msg.blockNo

/-- The reader writes no byte into the ring that is more than the size of the ring behind the
beginning of a slice in flight. -/
def WritesFree (x : Sender) : Action → Prop
  | .readerWrite => ∀ i, (x.slices i).inFlight →
      x.input.length ≤ x.sliceStart (x.slices i).sliceNo + x.fifo.dataBufSize
  | _ => True

instance (x : Sender) : (a : Action) → Decidable (WritesFree x a)
  | .readerWrite => inferInstanceAs (Decidable (∀ _, _))
  | .arrive _ | .enqueue | .dispatch | .advance | .wake | .timeout | .readerWait | .read _
  | .readerConsumed | .readerProduced => inferInstanceAs (Decidable True)

/-! ### Blocks -/

theorem lt_nrBlocks {c : NetConfig} {bytes k : ℕ} :
    k < c.nrBlocks bytes ↔ k * c.blockSize < bytes := lt_blocksIn c.blockSize_pos

theorem dataPacket_eq {x : Sender} {s : Slice} {k : ℕ} {d : Datagram}
    (hN : 0 < x.fifo.dataBufSize) (hbytes : s.bytes ≤ x.fifo.dataBufSize)
    (hk : k < x.config.nrBlocks s.bytes) (h : dataPacket x s k = some d) :
    d = .data ⟨s.sliceNo, asU16 k, asI32 s.bytes⟩ (blockOf x.config.blockSize
      (Ring.window x.fifo.dataBufSize s.base s.bytes x.fifo.buffer) k) := by
  have hlt := lt_nrBlocks.mp hk
  rw [dataPacket, if_neg (by omega)] at h
  obtain ⟨payload, hpayload, h⟩ := Option.bind_eq_some_iff.mp h
  rw [Fifo.readAt_eq hN (by omega)] at hpayload
  rw [← window_block hlt, Option.some.inj hpayload]
  exact (Option.some.inj h).symm

/-! ### The invariant -/

structure Intact (x : Sender) : Prop where
  slots : ∀ i, (x.slices i).inFlight →
    Ring.window x.fifo.dataBufSize (x.slices i).base (x.slices i).bytes x.fifo.buffer
      = x.sliceInput (x.slices i).sliceNo
  /-- What is in the ring and not cut. -/
  waiting : Ring.window x.fifo.dataBufSize x.cuts.sum (x.written - x.cuts.sum) x.fifo.buffer
    = (x.input.drop x.cuts.sum).take (x.written - x.cuts.sum)
  sent : ∀ msg payload, Datagram.data msg payload ∈ x.sent →
    0 ≤ msg.sliceNo ∧ msg.sliceNo < x.cuts.length ∧
      payload = blockOf x.config.blockSize (x.sliceInput msg.sliceNo) msg.blockNo

section Intact

variable {x x' : Sender} {a : Action} {F R P D : ℕ}

theorem Queues.bytes_le (h : Queues x F R P D) {i : Fin 8} (hi : (x.slices i).inFlight) :
    (x.slices i).bytes ≤ x.fifo.dataBufSize := by
  have hle := h.le
  have hret := h.returned
  have hone : (if (x.slices i).inFlight then (x.slices i).bytes else 0) ≤ inFlightBytes x :=
    Finset.single_le_sum (f := fun i => if (x.slices i).inFlight then (x.slices i).bytes else 0)
      (fun _ _ => Nat.zero_le _) (Finset.mem_univ i)
  rw [if_pos hi] at hone
  omega

theorem Intact.packet (h : Intact x) (hq : Queues x F R P D) (hcut : Cut x) {i : Fin 8}
    (hi : (x.slices i).inFlight) {msg : DataBlock} {payload : List UInt8}
    (hd : IsData x i (.data msg payload)) : 0 ≤ msg.sliceNo ∧ msg.sliceNo < x.cuts.length ∧
      payload = blockOf x.config.blockSize (x.sliceInput msg.sliceNo) msg.blockNo := by
  obtain ⟨k, hk, hd⟩ := hd
  have hbytes := hq.bytes_le hi
  obtain ⟨h0, hlt, -, -⟩ := hcut.slot i hi
  obtain ⟨rfl, rfl⟩ := Datagram.data.inj (dataPacket_eq hq.pos hbytes hk hd)
  have hsmall : asU16 k = k := by
    have hmul := lt_nrBlocks.mp hk
    rw [hq.size, Nat.mul_comm] at hbytes
    have : k < 4096 := Nat.lt_of_mul_lt_mul_right (hmul.trans_le hbytes)
    rw [asU16, Nat.mod_eq_of_lt (by omega)]
  refine ⟨h0, hlt, ?_⟩
  show _ = blockOf _ (x.sliceInput (x.slices i).sliceNo) (asU16 k)
  rw [hsmall, h.slots i hi]

theorem Intact.moves (h : Intact x) (hq : Queues x F R P D) (hcut : Cut x)
    (hguard : WritesFree x a) (hm : Moves x a x') : Intact x' := by
  have hle := hq.le
  have hwritten := hq.written
  have hsum : x.cuts.sum = D := hq.cut
  have hwait := Waiting.moves h.waiting hq hm
  cases hm with
  | @kept ds hs hcuts hno hinput hw hb hN hc hsent hds =>
    obtain ⟨buf, hinput⟩ := hinput
    have hcuts' : x'.cuts = x.cuts ++ [] := by rw [hcuts, List.append_nil]
    refine ⟨fun i hi => ?_, hwait, fun msg payload hd => ?_⟩
    · obtain ⟨hi', hno', hbase, hbytes⟩ := hs i hi
      obtain ⟨h0, hlt, -, -⟩ := hcut.slot i hi'
      rw [hno', hbase, hbytes, hb, hN, sliceInput_congr hinput hcuts' h0 hlt (by omega)]
      exact h.slots i hi'
    · have hnew : 0 ≤ msg.sliceNo ∧ msg.sliceNo < x.cuts.length ∧
          payload = blockOf x.config.blockSize (x.sliceInput msg.sliceNo) msg.blockNo := by
        rw [hsent] at hd
        rcases List.mem_append.mp hd with hd | hd
        · exact h.sent msg payload hd
        · obtain ⟨i, hi, hd | ⟨-, -, k, -, hd⟩ | ⟨rxmit, hd⟩⟩ := hds _ hd
          · exact h.packet hq hcut hi hd
          · obtain ⟨_, -, hd⟩ := Option.map_eq_some_iff.mp hd
            cases hd
          · cases hd
      obtain ⟨h0, hlt, hpayload⟩ := hnew
      rw [hcuts, hc, sliceInput_congr hinput hcuts' h0 hlt (by omega)]
      exact ⟨h0, hlt, hpayload⟩
  | @formed pos bytes m amount data hfree hm hcutFrom heq =>
    obtain ⟨hno, hbytes, hbase, hstart, hlast⟩ :=
      formed_slot pos bytes data hcut hq
    obtain ⟨hm', -⟩ := hq.data.consume hm
    have hbm := hcutFrom.le
    have hcuts : (formed x pos bytes data).cuts = x.cuts ++ [bytes] := rfl
    have hN : (formed x pos bytes data).fifo.dataBufSize = x.fifo.dataBufSize := rfl
    have hinput : (formed x pos bytes data).input = x.input ++ [] := (List.append_nil _).symm
    have hfirst : Ring.window x.fifo.dataBufSize x.cuts.sum bytes x.fifo.buffer
        = (x.input.drop x.cuts.sum).take bytes := Waiting.cut h.waiting hq (by omega)
    rw [heq] at hwait ⊢
    refine ⟨fun i hi => ?_, hwait, fun msg payload hd => ?_⟩
    · by_cases hip : i = pos
      · rw [hip, hno, hbytes, hbase, hN, Ring.window_mod, Sender.sliceInput, hstart, Int.toNat_natCast, hlast]
        exact hsum ▸ hfirst
      · rw [formed_slices_of_ne _ _ _ hip] at hi ⊢
        obtain ⟨h0, hlt, -, -⟩ := hcut.slot i hi
        rw [sliceInput_congr hinput hcuts h0 hlt (by omega)]
        exact h.slots i hi
    · obtain ⟨h0, hlt, hpayload⟩ := h.sent msg payload hd
      rw [sliceInput_congr hinput hcuts h0 hlt (by omega), hcuts]
      exact ⟨h0, by rw [List.length_append]; omega, hpayload⟩
  | @wrote pos buf ha hr heq =>
    have hahead := hq.ahead
    rw [hr] at hahead
    obtain ⟨hin, hR, hdrop, hpos⟩ := hahead
    rw [ha] at hguard
    have hw : x.written = P := by
      rw [Sender.written, hr]
      simp only
      omega
    have hbuf : buf.length ≤ x.fifo.dataBufSize := by omega
    rw [heq] at hwait ⊢
    refine ⟨fun i hi => ?_, hwait, h.sent⟩
    obtain ⟨h0, hlt, hbytes, hbase⟩ := hcut.slot i hi
    have hroom := hguard i hi
    have hend := sum_take_add_getD_le x.cuts (x.slices i).sliceNo.toNat
    have hstart : x.sliceStart (x.slices i).sliceNo
      = (x.cuts.take (x.slices i).sliceNo.toNat).sum := rfl
    have hslot := h.slots i hi
    rw [hbase, Ring.window_mod] at hslot ⊢
    show Ring.window x.fifo.dataBufSize _ _ (Ring.write x.fifo.dataBufSize pos buf x.fifo.buffer) = _
    rw [hpos, Ring.window_write_of_disjoint hbuf
      (Ring.disjoint_cells (by rw [hbytes, hstart]; omega) (by omega)).symm]
    exact hslot

end Intact

theorem intact_start {config : NetConfig} {db : ParticipantsDb} {x : Sender}
    (h : Sender.start config db = some x) : Intact x := by
  simp only [Sender.start, Option.bind_eq_bind, Option.bind_eq_some_iff] at h
  obtain ⟨fifo, -, nrFec, -, c₁, -, c₂, -, h⟩ := h
  obtain rfl := Option.some.inj h
  exact ⟨fun i hi => by simp [Slice.inFlight, Slice.new] at hi, rfl,
    fun _ _ hd => absurd hd List.not_mem_nil⟩

/-- In every run of the sender and its reader in which the reader writes no byte more than the size
of the ring behind the beginning of a slice in flight, the ring has the input bytes of all slices in
flight, and every DATA block carries the bytes of its slice. -/
theorem ring_intact (config : NetConfig) (db : ParticipantsDb) (x₀ x : Sender)
    (hstart : Sender.start config db = some x₀) (hrun : Run.Reach step WritesFree x₀ x) :
    RingIntact x := by
  obtain ⟨hintact, -⟩ := hrun.invariant (I := fun x => Intact x ∧ Sound x)
    ⟨intact_start hstart, sound_start hstart⟩ fun s a s' ⟨hi, hsound⟩ hguard hs => by
      have hs' := step_cases hs
      obtain ⟨F, R, P, D, hq⟩ := hsound.queues
      exact ⟨hi.moves hq hsound.cut hguard (hs'.moves hsound.control), hsound.step hs'⟩
  exact ⟨hintact.slots, fun msg payload hd => (hintact.sent msg payload hd).2.2⟩

/-- Slices of two blocks.  While the first one is in flight, the reader writes on into the ring, and
both participants ask for block 0 again. -/
def readOnAndRepeat : List Action :=
  readBytes ([1, 2, 3, 4, 5, 6, 7, 8] ++ List.replicate 32 0) ++ List.replicate 14 .advance ++
    readBytes [9, 10, 11, 12] ++ message (.retransmit 0 0 (Bitmap.insert 0 1) 0) ++
    message (.retransmit 0 1 (Bitmap.insert 0 1) 0) ++ [.wake, .dispatch, .dispatch] ++
    List.replicate 13 .advance

theorem ring_intact_retransmitted : ∃ x : Sender, RingIntact x ∧ (x.slices 0).inFlight ∧
    x.input.drop 40 = [9, 10, 11, 12] ∧ x.sent.count (.data ⟨0, 0, 8⟩ [1, 2, 3, 4]) = 3 := by
  have hexec : ((Sender.start { halfDuplex with defaultSliceSize := 2 } twoParticipants).bind fun x =>
      Run.exec step WritesFree x readOnAndRepeat).map
      (fun x => decide ((x.slices 0).inFlight ∧ x.input.drop 40 = [9, 10, 11, 12] ∧
        x.sent.count (.data ⟨0, 0, 8⟩ [1, 2, 3, 4]) = 3)) = some true := by decide +kernel
  obtain ⟨x, hx, hp⟩ := Option.map_eq_some_iff.mp hexec
  obtain ⟨x₀, hstart, hx⟩ := Option.bind_eq_some_iff.mp hx
  exact ⟨x, ring_intact { halfDuplex with defaultSliceSize := 2 } twoParticipants x₀ x hstart
    (Run.reach_of_exec hx), of_decide_eq_true hp⟩

/-! ### A slice that is overwritten -/

/-- A full-duplex transfer in slices of 1024 blocks of four bytes. -/
def fullDuplex : NetConfig := { halfDuplex with flags := flagSn, defaultSliceSize := 1024 }

/-- The ring is filled, slices 0 and 1 are sent, slice 1 is acked, and the reader reads on into the
ring. -/
def overwriteFirst : List Action :=
  (List.replicate 4 (readBytes (List.replicate 4096 0))).flatten ++ List.replicate 15 .advance ++
    message (.ok 1 0) ++ message (.ok 1 1) ++ [.dispatch, .dispatch] ++ List.replicate 3 .advance ++
    readBytes (List.replicate 4096 1)

theorem ring_overwritten : ∃ x₀ x, Sender.start fullDuplex twoParticipants = some x₀ ∧
    Run.Reach step (fun _ _ => True) x₀ x ∧ ¬ RingIntact x := by
  have hexec : ((Sender.start fullDuplex twoParticipants).bind fun x =>
      Run.exec step (fun _ _ => True) x overwriteFirst).map
      (fun x => decide ((x.slices 0).inFlight ∧ (x.slices 0).base = 0 ∧ (x.slices 0).bytes = 4096 ∧
        (x.slices 0).sliceNo = 0 ∧ x.cuts = [4096, 4096] ∧ x.fifo.buffer 0 = 1 ∧
        x.input.head? = some 0)) = some true := by decide +kernel
  obtain ⟨x, hx, hp⟩ := Option.map_eq_some_iff.mp hexec
  obtain ⟨x₀, hstart, hx⟩ := Option.bind_eq_some_iff.mp hx
  obtain ⟨hfl, hbase, hbytes, hno, hcuts, hbuf, hhead⟩ := of_decide_eq_true hp
  refine ⟨x₀, x, hstart, Run.reach_of_exec hx, fun hintact => ?_⟩
  -- the first byte of the slice
  have hfirst := congrArg List.head? (hintact.1 0 hfl)
  have hzero : (List.take (Int.toNat 0) [4096, 4096]).sum = 0 := rfl
  have hlen : [4096, 4096].getD (Int.toNat 0) 0 = 4096 := rfl
  rw [hbase, hbytes, hno, Sender.sliceInput, Sender.sliceStart, hcuts, hzero, hlen, List.drop_zero,
    List.head?_take, if_neg (by decide), hhead, Ring.window, List.head?_map, List.head?_range,
    if_neg (by decide), Option.map_some, Nat.zero_add, Nat.zero_mod, hbuf] at hfirst
  cases hfirst

end Udpcast.SendData
