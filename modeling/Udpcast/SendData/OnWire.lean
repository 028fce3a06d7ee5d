import Udpcast.Negotiate.Late
import Udpcast.SendData.HalfDuplex
import Udpcast.SendData.RoundNumbers
import Udpcast.Wire

/-!
# The packets on the wire

The numbers of the slices and of the rounds stay in their fields, the main loop stops at the first one
that does not.  A receiver, whose buffer has 4096 bytes, reads every packet as it was sent, with the
first 4080 bytes of its block.
-/

namespace Udpcast.SendData

open Sender Bytes

/-- A packet for the socket (senddata.rs:943-961, 978-996, 1217-1222). -/
def packet : Datagram → List UInt8
  | .data msg payload => msg.pack ++ payload
  | .fec msg payload => msg.pack ++ payload
  | .reqack msg => msg.pack
  | .skipped => []
  | .unexpected => []

/-- What is left of a packet in a buffer of 4096 bytes (receivedata.rs:156, receiver.rs:418). -/
def received (d : Datagram) : List UInt8 := (packet d).take 4096

/-- A datagram with the first 4080 bytes of its payload. -/
def clipped : Datagram → Datagram
  | .data msg payload => .data msg (payload.take 4080)
  | .fec msg payload => .fec msg (payload.take 4080)
  | .reqack msg => .reqack msg
  | .skipped => .skipped
  | .unexpected => .unexpected

/-! ### One packet -/

/-- The fields are values of their types, the payload is at most a block. -/
def Fits (blockSize : ℕ) : Datagram → Prop
  | .data msg payload => 0 ≤ msg.sliceNo ∧ (Message.data msg).Typed ∧ payload.length ≤ blockSize
  | .fec msg payload => 0 ≤ msg.sliceNo ∧ (Message.fec msg).Typed ∧
      asI16 msg.stripes = msg.stripes ∧ payload.length ≤ blockSize
  | .reqack msg => 0 ≤ msg.sliceNo ∧ (Message.reqack msg).Typed
  | .skipped => False
  | .unexpected => False

section Fits

variable {blockSize : ℕ} {d : Datagram}

theorem received_eq {header payload : List UInt8} (h : header.length = 16) :
    (header ++ payload).take 4096 = header ++ payload.take 4080 := by
  rw [List.take_append, List.take_of_length_le (by omega), h]

theorem Fits.clipped_eq (h : Fits blockSize d) (hblock : blockSize ≤ 4080) : clipped d = d := by
  cases d with
  | data msg payload =>
    have hle : payload.length ≤ blockSize := h.2.2
    rw [clipped, List.take_of_length_le (by omega)]
  | fec msg payload =>
    have hle : payload.length ≤ blockSize := h.2.2.2
    rw [clipped, List.take_of_length_le (by omega)]
  | reqack msg => rfl
  | skipped => exact h.elim
  | unexpected => exact h.elim

theorem Fits.readDatagram (h : Fits blockSize d) (rest : List UInt8) :
    readDatagram (received d ++ rest) (received d).length = clipped d := by
  cases d with
  | data msg payload =>
    obtain ⟨-, ht, -⟩ := h
    have hlen : msg.pack.length = 16 := Message.length_pack ht
    rw [received, packet, received_eq hlen, List.append_assoc, List.length_append, hlen,
      readDatagram_data ht (by omega), Nat.add_sub_cancel_left, List.take_left, clipped]
  | fec msg payload =>
    obtain ⟨-, ht, hstripes, -⟩ := h
    have hlen : msg.pack.length = 16 := Message.length_pack ht
    rw [received, packet, received_eq hlen, List.append_assoc, List.length_append, hlen,
      readDatagram_fec ht (by omega), Nat.add_sub_cancel_left, List.take_left, clipped, hstripes]
  | reqack msg =>
    have hlen : msg.pack.length = 16 := Message.length_pack h.2
    rw [received, packet, List.take_of_length_le (by omega), hlen, readDatagram_reqack h.2 le_rfl,
      clipped]
  | skipped => exact h.elim
  | unexpected => exact h.elim

theorem Fits.overheard (h : Fits blockSize d) (rest : List UInt8) :
    Negotiate.overheard (received d ++ rest) = Negotiate.overheardOf d := by
  cases d with
  | data msg payload =>
    obtain ⟨-, ht, -⟩ := h
    have hlen : msg.pack.length = 16 := Message.length_pack ht
    have hop : opcodeOf (msg.pack ++ (payload.take 4080 ++ rest)) = cmdData :=
      opcodeOf_pack (.data msg) _
    rw [received, packet, received_eq hlen, List.append_assoc, Negotiate.overheard, hop,
      if_neg (by decide), if_pos rfl, DataBlock.unpack_pack ht.1 ht.2.1 ht.2.2]
    rfl
  | fec msg payload =>
    obtain ⟨-, ht, -, -⟩ := h
    have hlen : msg.pack.length = 16 := Message.length_pack ht
    have hop : opcodeOf (msg.pack ++ (payload.take 4080 ++ rest)) = cmdFec :=
      opcodeOf_pack (.fec msg) _
    rw [received, packet, received_eq hlen, List.append_assoc, Negotiate.overheard, hop,
      if_neg (by decide), if_neg (by decide), if_pos rfl,
      FecBlock.unpack_pack ht.2.1 ht.2.2.1 ht.2.2.2]
    rfl
  | reqack msg =>
    obtain ⟨-, ht⟩ := h
    have hlen : msg.pack.length = 16 := Message.length_pack ht
    have hop : opcodeOf (msg.pack ++ rest) = cmdReqack := opcodeOf_pack (.reqack msg) rest
    rw [received, packet, List.take_of_length_le (by omega), Negotiate.overheard, hop, if_pos rfl,
      Reqack.unpack_pack ht.1 ht.2.1 ht.2.2]
    rfl
  | skipped => exact h.elim
  | unexpected => exact h.elim

theorem Fits.length_received (h : Fits blockSize d) : 16 ≤ (received d).length := by
  cases d with
  | data msg payload =>
    have hlen : msg.pack.length = 16 := Message.length_pack h.2.1
    rw [received, packet, received_eq hlen, List.length_append]
    omega
  | fec msg payload =>
    have hlen : msg.pack.length = 16 := Message.length_pack h.2.1
    rw [received, packet, received_eq hlen, List.length_append]
    omega
  | reqack msg =>
    have hlen : msg.pack.length = 16 := Message.length_pack h.2
    rw [received, packet, List.take_of_length_le (by omega)]
    exact hlen.ge
  | skipped => exact h.elim
  | unexpected => exact h.elim

theorem Fits.heard (h : Fits blockSize d) (rest : List UInt8) {c : Negotiate.JoinConfig}
    {source : SocketAddrV4} (hport : source.port = c.senderPort) :
    (Negotiate.Arrival.mk source (received d).length (received d ++ rest)).heard c
      = Negotiate.overheardOf d := by
  have hlen := h.length_received
  have hnonneg : ∀ e ∈ Negotiate.overheardOf d, e.1 ≥ 0 := by
    intro e he
    cases d with
    | data msg payload =>
      obtain rfl := Option.some.inj he
      exact h.1
    | fec msg payload =>
      obtain rfl := Option.some.inj he
      exact h.1
    | reqack msg =>
      obtain rfl := Option.some.inj he
      exact h.1
    | skipped => exact h.elim
    | unexpected => exact h.elim
  rw [Negotiate.Arrival.heard, if_neg, h.overheard]
  · cases hd : Negotiate.overheardOf d with
    | none => rfl
    | some e =>
      rw [Option.filter_some, if_pos (decide_eq_true (hnonneg e hd))]
  · rw [not_or]
    exact ⟨not_not.mpr hport, not_lt.mpr (le_trans (by decide) hlen)⟩

end Fits

/-! ### The numbers of the slices and of the rounds -/

/-- The values of a number that is counted up from 0 in an `i32`. -/
def Counted (n : ℤ) : Prop := 0 ≤ n ∧ n < 2 ^ 31

theorem Counted.isI32 {n : ℤ} (h : Counted n) : IsI32 n := ⟨by have := h.1; omega, h.2⟩

theorem isI32_asI16 (x : ℤ) : IsI32 (asI16 x) := by
  obtain ⟨hlo, hhi⟩ : -((2 ^ 16 : ℕ) : ℤ) ≤ 2 * asI16 x ∧ 2 * asI16 x < (2 ^ 16 : ℕ) :=
    bmod_bounds x (by norm_num)
  push_cast at hlo hhi
  exact ⟨by linarith, by linarith⟩

theorem asI16_asI16 (x : ℤ) : asI16 (asI16 x) = asI16 x := Int.bmod_bmod

theorem fits_fec {blockSize k : ℕ} {stripes s n : ℤ} {payload : List UInt8} (h0 : 0 ≤ s)
    (ht : IsI32 stripes) (hs : IsI32 s) (hk : k < 2 ^ 16) (hn : IsI32 n)
    (hfield : asI16 stripes = stripes) (hle : payload.length ≤ blockSize) :
    Fits blockSize (.fec ⟨stripes, s, k, n⟩ payload) := ⟨h0, ⟨ht, hs, hk, hn⟩, hfield, hle⟩

theorem typed_reqack {s n round : ℤ} (hs : IsI32 s) (hn : IsI32 n) (hr : IsI32 round) :
    (Message.reqack ⟨s, n, round⟩).Typed := ⟨hs, hn, hr⟩

section Counts

variable {x x' : Sender} {a : Action} {i : Fin 8}

theorem counted_nextRound (hi : Counted (x.slices i).rxmitId) (h : nextRound x i = some x') :
    Counted (x'.slices i).rxmitId := by
  obtain ⟨hnext, hlt⟩ := rxmitId_nextRound h
  have hnonneg := hi.1
  exact ⟨by omega, hlt⟩

theorem counted_reqackPending {rest : List (Fin 8)} {nr : ℕ} {fr : Bool}
    (hi : Counted (x.slices i).rxmitId) (h : reqackPending x i rest nr fr = some x') :
    Counted (x'.slices i).rxmitId := by
  rw [reqackPending] at h
  split at h
  · obtain ⟨y, hy, rfl⟩ := Option.map_eq_some_iff.mp h
    show Counted ((freeAcked y i).slices i).rxmitId
    rw [rxmitId_freeAcked]
    exact counted_nextRound hi hy
  · obtain rfl := Option.some.inj h
    exact hi

theorem counted_timeOut {rest : List (Fin 8)} (hi : Counted (x.slices i).rxmitId)
    (hpending : x.pending = i :: rest) (h : timeOut x = some x') : Counted (x'.slices i).rxmitId := by
  rw [timeOut, hpending] at h
  dsimp only at h
  split at h
  · split at h
    · obtain rfl := Option.some.inj h
      exact hi
    · obtain ⟨y, hy, rfl⟩ := Option.map_eq_some_iff.mp h
      have hn : Counted (y.slices i).rxmitId := by
        apply counted_nextRound _ hy
        exact hi
      exact hn
  · obtain ⟨y, hy, rfl⟩ := Option.map_eq_some_iff.mp h
    have hn := counted_nextRound hi hy
    exact hn

theorem timeOut_of_step (hs : step x .timeout = some x') : timeOut x = some x' := by
  rw [step] at hs
  split at hs
  · exact hs
  · cases hs

theorem sliceNo_lt_formSlice (h : formSlice x i = some x') : x'.sliceNo < 2 ^ 31 := by
  simp only [formSlice, Option.bind_eq_bind, Option.bind_eq_some_iff] at h
  obtain ⟨n, hn, m, -, bytes, -, data, -, h⟩ := h
  obtain rfl := Option.some.inj h
  obtain ⟨rfl, hlt⟩ := checkI32_eq_some hn
  exact hlt

/-- What a step does to the numbers: `reqacks` are those of the rounds that it asks about. -/
structure Numbers (x x' : Sender) : Prop where
  sliceNo : x'.sliceNo < 2 ^ 31
  rounds : ∀ i, Counted (x'.slices i).rxmitId
  reqacks : ∀ msg, Datagram.reqack msg ∈ x'.sent →
    Datagram.reqack msg ∈ x.sent ∨ Counted msg.rxmit

theorem Numbers.quiet (hno : x.sliceNo < 2 ^ 31)
    (h : ∀ i, Counted (x.slices i).rxmitId)
    (hsame : ∀ i, (x'.slices i).rxmitId = (x.slices i).rxmitId) (hno' : x'.sliceNo = x.sliceNo)
    (hsent : ∀ msg, Datagram.reqack msg ∈ x'.sent → Datagram.reqack msg ∈ x.sent) :
    Numbers x x' := by
  refine ⟨by rwa [hno'], fun i => ?_, fun msg hmsg => Or.inl (hsent msg hmsg)⟩
  rw [hsame]
  exact h i

theorem numbers_requested {y : Sender} {n : ℤ}
    (h : ∀ j, Counted (y.slices j).rxmitId) (hn : Counted n) :
    (∀ j, Counted ((requested (bumped y i n) i).slices j).rxmitId) ∧
      ∀ msg, Datagram.reqack msg ∈ (requested (bumped y i n) i).sent →
        Datagram.reqack msg ∈ y.sent ∨ Counted msg.rxmit := by
  constructor
  · intro j
    by_cases hji : j = i
    · subst hji
      rw [requested_slices_self, bumped_slices_self]
      exact hn
    · rw [requested_slices_of_ne _ hji, bumped_slices_of_ne _ _ hji]
      exact h j
  · intro msg hmsg
    rw [requested, send_sent] at hmsg
    rcases List.mem_append.mp hmsg with hmsg | hmsg
    · exact Or.inl hmsg
    · have heq := List.mem_singleton.mp hmsg
      rw [reqackOf, bumped_slices_self] at heq
      obtain rfl := Datagram.reqack.inj heq
      exact Or.inr hn

theorem reqack_notMem {ds : List Datagram} {msg : Reqack}
    (hds : ∀ d ∈ ds, IsData x i d ∨
      x.config.hasFlag flagFec = true ∧ 0 < (x.slices i).bytes ∧ IsFec x i d) :
    Datagram.reqack msg ∉ ds := by
  intro hmsg
  rcases hds _ hmsg with ⟨k, -, hd⟩ | ⟨-, -, k, -, hd⟩
  · obtain ⟨payload, -, hd⟩ := Option.bind_eq_some_iff.mp hd
    cases hd
  · obtain ⟨payload, -, hd⟩ := Option.map_eq_some_iff.mp hd
    cases hd

theorem numbers_step (hc : Control x) (hno : x.sliceNo < 2 ^ 31)
    (h : ∀ i, Counted (x.slices i).rxmitId) (hs : step x a = some x') : Numbers x x' := by
  cases step_cases hs with
  | arrive _ _ => exact Numbers.quiet hno h (fun _ => rfl) rfl fun _ => id
  | enqueue _ => exact Numbers.quiet hno h (fun _ => rfl) rfl fun _ => id
  | @dispatch m rest _ _ =>
    obtain ⟨-, slices, db, trace, heq⟩ := handleMessage_frame { x with msgs := rest } m
    refine Numbers.quiet hno h (rxmitId_handleMessage _ m) (by rw [heq]) fun msg hmsg => ?_
    rw [heq] at hmsg
    exact hmsg
  | goto _ => exact Numbers.quiet hno h (fun _ => rfl) rfl fun _ => id
  | retain _ => exact Numbers.quiet hno h (fun _ => rfl) rfl fun _ => id
  | acked _ _ _ _ => exact Numbers.quiet hno h (fun j => rxmitId_released x _ j _ _) rfl fun _ => id
  | @rexmit i rest fl map good ds _ hds =>
    have hpackets : ∀ d ∈ ds, IsData x i d ∨
        x.config.hasFlag flagFec = true ∧ 0 < (x.slices i).bytes ∧ IsFec x i d :=
      fun d hd => Or.inl (hds.packet d hd)
    have hround := rxmitId_modify (x := x) (i := i) (f := fun s => s.rexmitted map good) rfl
    refine Numbers.quiet hno h hround rfl fun msg hmsg => ?_
    exact (List.mem_append.mp hmsg).resolve_right (reqack_notMem hpackets)
  | @reqack i rest nr fr n hphase _ =>
    rw [step, advance, hphase] at hs
    have hn := counted_reqackPending (h i) hs
    dsimp only at hn
    rw [requested_slices_self, bumped_slices_self] at hn
    obtain ⟨hrounds, hreqacks⟩ := numbers_requested (i := i) h hn
    exact ⟨hno, hrounds, hreqacks⟩
  | asyncRound hasync => exact absurd hasync hc.not_asyncRound
  | @form pos bytes m data hphase hroom hend _ _ _ _ =>
    refine ⟨?_, fun j => ?_, fun msg hmsg => Or.inl hmsg⟩
    · rw [step, advance, hphase] at hs
      dsimp only at hs
      rw [formOrWait, if_pos ⟨hroom, hend⟩] at hs
      split at hs
      · exact sliceNo_lt_formSlice hs
      · have heq := congrArg Sender.sliceNo (Option.some.inj hs)
        rw [← heq]
        exact hno
    · by_cases hj : j = pos
      · subst hj
        rw [formed_slices_self]
        exact ⟨le_rfl, show (0 : ℤ) < 2 ^ 31 by norm_num⟩
      · rw [formed_slices_of_ne _ _ _ hj]
        exact h j
  | finish _ => exact Numbers.quiet hno h (fun _ => rfl) rfl fun _ => id
  | @encode i fecData _ _ =>
    have hround := rxmitId_modify (x := x) (i := i) (f := fun s => { s with fecData := fecData }) rfl
    exact Numbers.quiet hno h hround rfl fun _ => id
  | @transmit i ds hphase hds _ =>
    have hround : ∀ j, ((requested (transmitted x i ds) i).slices j).rxmitId = (x.slices j).rxmitId := by
      intro j
      have hsent := rxmitId_modify (x := x.send ds) (i := i) (f := fun s => { s with state := .xmitted })
        rfl j
      have hasked := rxmitId_modify (x := transmitted x i ds) (i := i) (f := Slice.nextRound) rfl j
      exact hasked.trans hsent
    refine ⟨hno, fun j => ?_, fun msg hmsg => ?_⟩
    · show Counted ((requested (transmitted x i ds) i).slices j).rxmitId
      rw [hround]
      exact h j
    · rcases List.mem_append.mp hmsg with hmsg | hmsg
      · exact Or.inl ((List.mem_append.mp hmsg).resolve_right (reqack_notMem hds))
      · have heq := List.mem_singleton.mp hmsg
        rw [reqackOf, transmitted_slices_self] at heq
        obtain rfl := Datagram.reqack.inj heq
        exact Or.inr (h i)
  | @transmitAsync i ds c q _ hds _ _ _ =>
    refine Numbers.quiet hno h (fun j => rxmitId_released (x.send ds) i j c q) rfl fun msg hmsg => ?_
    exact (List.mem_append.mp hmsg).resolve_right (reqack_notMem hds)
  | @timeout i rest n hphase hpending =>
    have hn := counted_timeOut (h i) hpending (timeOut_of_step hs)
    dsimp only at hn
    rw [requested_slices_self, bumped_slices_self] at hn
    obtain ⟨hrounds, hreqacks⟩ :=
      numbers_requested (y := { x with db := afterDrop x i }) (i := i) h hn
    exact ⟨hno, hrounds, hreqacks⟩
  | allDropped _ _ => exact Numbers.quiet hno h (fun _ => rfl) rfl fun _ => id
  | readerWait _ hw =>
    rcases readerWait_frame hw with rfl | ⟨_, _, rfl⟩
    · exact Numbers.quiet hno h (fun _ => rfl) rfl fun _ => id
    · exact Numbers.quiet hno h (fun _ => rfl) rfl fun _ => id
  | readEnd _ => exact Numbers.quiet hno h (fun _ => rfl) rfl fun _ => id
  | read _ _ => exact Numbers.quiet hno h (fun _ => rfl) rfl fun _ => id
  | readerConsumed _ _ => exact Numbers.quiet hno h (fun _ => rfl) rfl fun _ => id
  | readerWrite _ _ => exact Numbers.quiet hno h (fun _ => rfl) rfl fun _ => id
  | readerProduced _ _ => exact Numbers.quiet hno h (fun _ => rfl) rfl fun _ => id

end Counts

/-! ### Runs -/

/-- What is on the wire, and what will be. -/
structure OnWire (x : Sender) : Prop where
  sliceNo : x.sliceNo < 2 ^ 31
  rounds : ∀ i, Counted (x.slices i).rxmitId
  parity : x.config.hasFlag flagFec = true →
    HasParity x.config.fecStripes x.config.fecRedundancy x
  sent : ∀ d ∈ x.sent, Fits x.config.blockSize d

section OnWire

variable {x x' : Sender} {a : Action}

/-- The packets of a slice; for a REQACK the round is counted. -/
theorem PacketOf.fits (h : OnWire x) (hcut : Cut x) {i : Fin 8} {d : Datagram}
    (hflight : (x.slices i).inFlight) (hd : PacketOf x i d)
    (hround : ∀ msg, d = .reqack msg → Counted msg.rxmit) : Fits x.config.blockSize d := by
  obtain ⟨h0, hlt, -, -⟩ := hcut.slot i hflight
  have hno : Counted (x.slices i).sliceNo := by
    have hnext := hcut.next
    have hsmall := h.sliceNo
    exact ⟨h0, by omega⟩
  have hbytes := isI32_asI32 (x.slices i).bytes
  have hstripes := isI32_asI16 (asI32 x.config.fecStripes)
  rcases hd with ⟨k, -, hd⟩ | ⟨hflag, -, k, -, hd⟩ | ⟨rxmit, rfl⟩
  · obtain ⟨payload, hpayload, hd⟩ := Option.bind_eq_some_iff.mp hd
    obtain rfl := Option.some.inj hd
    refine ⟨h0, typed_data hno.isI32 (asU16_lt k) hbytes, ?_⟩
    rw [Fifo.length_readAt hpayload]
    split
    · exact Nat.zero_le _
    · exact min_le_left _ _
  · obtain ⟨payload, hget, rfl⟩ := Option.map_eq_some_iff.mp hd
    have hlength := ((h.parity hflag).blocks i).size payload (List.mem_of_getElem? hget)
    exact fits_fec h0 hstripes hno.isI32 (asU16_lt k) hbytes (asI16_asI16 _) hlength.le
  · exact ⟨h0, typed_reqack hno.isI32 hbytes (hround _ rfl).isI32⟩

theorem OnWire.step (h : OnWire x) (hsound : Sound x) (hs : SendData.step x a = some x') :
    OnWire x' := by
  have hstep := step_cases hs
  have hm := hstep.moves hsound.control
  have hn := numbers_step hsound.control h.sliceNo h.rounds hs
  have hresized := hstep.resized hsound.control
  obtain ⟨hsize, hstripes, hred⟩ := hresized.fec
  refine ⟨hn.sliceNo, hn.rounds, fun hflag => ?_, fun d hd => ?_⟩
  · rw [hstripes, hred]
    rw [hasFlag_congr hresized.flags] at hflag
    exact (h.parity hflag).step hsound.control hstep
  · rw [hsize]
    cases hm with
    | kept ds _ _ _ _ _ _ _ _ hsent hds =>
      rw [hsent] at hd
      rcases List.mem_append.mp hd with hold | hnew
      · exact h.sent d hold
      · obtain ⟨i, hflight, hpacket⟩ := hds d hnew
        by_cases hold : d ∈ x.sent
        · exact h.sent d hold
        · refine hpacket.fits h hsound.cut hflight ?_
          rintro msg rfl
          have hmem : Datagram.reqack msg ∈ x'.sent := by
            rw [hsent]
            exact List.mem_append_right _ hnew
          exact (hn.reqacks msg hmem).resolve_left hold
    | formed _ _ _ heq =>
      rw [heq] at hd
      exact h.sent d hd
    | wrote _ _ heq =>
      rw [heq] at hd
      exact h.sent d hd

theorem onWire_start {config : NetConfig} {db : ParticipantsDb}
    (hstart : Sender.start config db = some x) : OnWire x := by
  have hparity : x.config.hasFlag flagFec = true →
      HasParity x.config.fecStripes x.config.fecRedundancy x := by
    intro hflag
    rw [hasFlag_congr (start_flags hstart)] at hflag
    have h := hasParity_start hflag hstart
    rwa [h.fecStripes, h.fecRedundancy]
  simp only [Sender.start, Option.bind_eq_bind, Option.bind_eq_some_iff] at hstart
  obtain ⟨fifo, -, nrFec, -, c₁, -, c₂, -, hstart⟩ := hstart
  obtain rfl := Option.some.inj hstart
  refine ⟨show (0 : ℤ) < 2 ^ 31 by norm_num, fun i => ?_, hparity, fun d hd => (by cases hd)⟩
  exact ⟨le_rfl, show (0 : ℤ) < 2 ^ 31 by norm_num⟩

/-- What is sent is what is read.  In every run of the sender, whatever mode and messages: a receiver
in its main loop reads every packet that has been sent as it was sent, with the first 4080 bytes of its
payload, which is the packet itself for blocks of at most 4080 bytes; a receiver that is still in the
negotiation notes its slice, size and round. -/
theorem sent_read (config : NetConfig) (db : ParticipantsDb) (x₀ x : Sender) (d : Datagram)
    (hstart : Sender.start config db = some x₀) (hrun : Run.Reach step (fun _ _ => True) x₀ x)
    (hd : d ∈ x.sent) :
    (∀ rest, readDatagram (received d ++ rest) (received d).length = clipped d) ∧
      (config.blockSize ≤ 4080 → clipped d = d) ∧
      ∀ (rest : List UInt8) (c : Negotiate.JoinConfig) (source : SocketAddrV4),
        source.port = c.senderPort →
          (Negotiate.Arrival.mk source (received d).length (received d ++ rest)).heard c
            = Negotiate.overheardOf d := by
  have h := hrun.invariant
    (I := fun x => OnWire x ∧ Sound x ∧ x.config.blockSize = config.blockSize)
    ⟨onWire_start hstart, sound_start hstart, start_blockSize hstart⟩
    fun x a x' ⟨honWire, hsound, hsize⟩ _ hs => by
      have hstep := step_cases hs
      obtain ⟨hsame, -⟩ := (hstep.resized hsound.control).fec
      exact ⟨honWire.step hsound hs, hsound.step hstep, hsame.trans hsize⟩
  have hfits := h.1.sent d hd
  rw [h.2.2] at hfits
  exact ⟨hfits.readDatagram, hfits.clipped_eq, fun rest c source hport => hfits.heard rest hport⟩

/-- The packet of a slice of one byte. -/
theorem sent_read_oneByte : ∃ d : Datagram, d.slice = some (0, 1) ∧
    readDatagram (received d) (received d).length = d := by
  have hexec : ((Sender.start halfDuplex twoParticipants).bind fun x =>
      (Run.exec step (fun _ _ => True) x sendOne).bind fun y => y.sent.head?).map
        (fun d => decide (d.slice = some (0, 1))) = some true := by
    decide +kernel
  obtain ⟨d, hp, hslice⟩ := Option.map_eq_some_iff.mp hexec
  obtain ⟨x₁, hstart, hp⟩ := Option.bind_eq_some_iff.mp hp
  obtain ⟨y, hreach, hhead⟩ := Option.bind_eq_some_iff.mp hp
  obtain ⟨hread, hclip, -⟩ := sent_read halfDuplex twoParticipants x₁ y d hstart
    (Run.reach_of_exec hreach) (List.mem_of_mem_head? hhead)
  refine ⟨d, of_decide_eq_true hslice, ?_⟩
  have hbuf := hread []
  rw [List.append_nil, hclip (by decide)] at hbuf
  exact hbuf

end OnWire

end Udpcast.SendData
