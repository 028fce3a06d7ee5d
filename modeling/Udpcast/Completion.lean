import Udpcast.EndToEnd

/-!
# False completion

When every datagram arrives whole and the numbers of the parity blocks fit their field, a receiver at
which the end is marked has the input.  The field has sixteen bits; parity block 65536 of a slice carries
the number 0, and is taken for another one by a receiver that gets it first.
-/

namespace Udpcast.EndToEnd

open ReceiveData SendData

/-- In every run of a half-duplex transfer whose datagrams arrive whole: when the end is marked at a
receiver, the sender has read its input to the end, and exactly these bytes have passed through
`fifo.data` of the receiver. -/
theorem produce_end_complete (config : NetConfig) (db : ParticipantsDb) (x₀ : Sender) (s : System)
    (cl : ℕ) (r : Receiver) (hfit : HalfDuplexFit config) (hstart : Sender.start config db = some x₀)
    (hrun : Run.Reach step Delivers (System.start x₀) s) (hr : s.receivers cl = some r)
    (hend : r.atEnd = true) : s.sender.fifo.data.inner.atEnd = true ∧ r.passed = s.sender.input := by
  have h := hrun.invariant (I := Together) (together_start hfit hstart)
    fun s a s' hi hd hs => hi.step hd hs
  exact h.passed_of_atEnd hr hend

/-! ### A transfer of one byte with parity -/

/-- `--fec` with the default size of a stripe, for blocks of four bytes. -/
def withFec (stripes redundancy : ℕ) : NetConfig :=
  { halfDuplex with
    flags := flagFec, fecStripes := stripes, fecRedundancy := redundancy, fecStripesize := 128 }

/-- The OK of participant 0 arrives, the slice is freed, and the end marker is formed. -/
def ackOne : List SendData.Action := message (.ok 0 0) ++ [.dispatch] ++ List.replicate 8 .advance

/-- A parity block and the REQACK of the slice arrive. -/
def takesParity (d : Datagram) : List ReceiveData.Action :=
  [.seed, .receive 0 0 d, .complete, .scan 0, .receive 0 0 (.reqack ⟨0, 1, 0⟩), .complete, .scan 0]

/-- The REQACK of the end marker arrives. -/
def takesEnd : List ReceiveData.Action := [.receive 0 0 (.reqack ⟨1, 0, 0⟩), .complete]

theorem withFec_slicesFit {stripes : ℕ} (redundancy : ℕ) (hpos : 0 < stripes) :
    SlicesFit (withFec stripes redundancy) := by
  intro size hsize
  obtain ⟨first, hfirst, rfl⟩ := Option.map_eq_some_iff.mp hsize
  have hfec : (withFec stripes redundancy).hasFlag flagFec = true := by
    simp [withFec, NetConfig.hasFlag, flagFec]
  have hcapped : ∀ n, (withFec stripes redundancy).capped n = min n (128 * stripes) := fun n => if_pos hfec
  have hmax : (withFec stripes redundancy).maxSliceSize = 1024 := rfl
  obtain rfl : first = 128 * stripes := by
    have hauto : (withFec stripes redundancy).autoSliceSize = some first := hfirst
    rw [NetConfig.autoSliceSize, if_pos hfec, checkU32] at hauto
    split at hauto
    · exact (Option.some.inj hauto).symm
    · cases hauto
  rw [hcapped, hmax, hcapped]
  omega

theorem withFec_one (stripes redundancy : ℕ) : (withFec stripes redundancy).maxInFlight = 1 := by
  simp [NetConfig.maxInFlight, withFec, NetConfig.hasFlag, flagFec, flagSn, flagNotSn]

theorem withFec_fit {stripes redundancy : ℕ} (hpos : 0 < stripes) (hred : redundancy ≤ 128)
    (hnos : stripes * redundancy ≤ 65536) : HalfDuplexFit (withFec stripes redundancy) where
  one := withFec_one stripes redundancy
  slices := withFec_slicesFit redundancy hpos
  blockSize := by
    show 1024 * 4 < _
    decide
  parity _ := ⟨hred, Or.inl hnos⟩

/-- The byte 7 is recovered from a parity block. -/
theorem produce_end_complete_recovered : ∃ r : Receiver, r.atEnd = true ∧ r.passed = [7] := by
  have hexec : ((Sender.start (withFec 2 1) firstParticipant).bind fun x =>
      (Run.exec step Delivers (System.start x) (.join 0 500 [] ::
        (formOne ++ List.replicate 2 SendData.Action.advance).map .sender ++
        (takesParity (.fec ⟨2, 0, 0, 1⟩ [65, 0, 0, 0])).map (.receiver 0) ++
        (ackOne ++ [SendData.Action.advance]).map .sender ++ takesEnd.map (.receiver 0))).bind fun s =>
          (s.receivers 0).map fun r => (s, r)).map
      (fun p => decide (p.2.atEnd = true ∧ p.1.sender.input = [7])) = some true := by
    decide +kernel
  obtain ⟨⟨s, r⟩, hs, hp⟩ := Option.map_eq_some_iff.mp hexec
  obtain ⟨x₀, hstart, hs⟩ := Option.bind_eq_some_iff.mp hs
  obtain ⟨s', hreach, hs⟩ := Option.bind_eq_some_iff.mp hs
  obtain ⟨r', hr, heq⟩ := Option.map_eq_some_iff.mp hs
  obtain ⟨rfl, rfl⟩ := Prod.mk.inj heq
  obtain ⟨hend, hinput⟩ := of_decide_eq_true hp
  obtain ⟨-, hpassed⟩ := produce_end_complete (withFec 2 1) firstParticipant x₀ s' 0 r'
    (withFec_fit (by decide) (by decide) (by decide)) hstart (Run.reach_of_exec hreach) hr hend
  exact ⟨r', hend, hpassed.trans hinput⟩

/-! ### A parity block without its number -/

/-- A receiver joins before the first slice. -/
def Early (s : System) : Action → Prop
  | .join _ _ heard => s.sender.cuts = [] ∧ heard = []
  | _ => True

/-- One of the packets arrives, and not one of an earlier slice than the one that arrived last. -/
def Arrives (packets : List Datagram) (last : ℤ) : ReceiveData.Action → Prop
  | .receive _ _ d => d ∈ packets ∧ ∀ p ∈ d.slice, last ≤ p.1
  | _ => True

instance (packets : List Datagram) (last : ℤ) :
    (a : ReceiveData.Action) → Decidable (Arrives packets last a)
  | .receive _ _ _ => inferInstanceAs (Decidable (_ ∧ _))
  | .seed | .expire _ | .complete | .scan _ | .write | .writeConsumed | .writeProduced =>
    inferInstanceAs (Decidable True)

/-- A sender and one receiver, with the number of the slice that arrived last there. -/
def System.pair (x : Sender) (p : Receiver × ℤ) : System where
  sender := x
  receivers := Function.update (fun _ => none) 0 (some p.1)
  last := Function.update (fun _ => -1) 0 p.2

theorem pair_receivers (x : Sender) (p : Receiver × ℤ) :
    (System.pair x p).receivers 0 = some p.1 := rfl

theorem reach_sender {x y : Sender} (p : Receiver × ℤ)
    (h : Run.Reach SendData.step (fun _ _ => True) x y) :
    Run.Reach step (fun s a => Delivers s a ∧ Early s a) (System.pair x p) (System.pair y p) := by
  apply h.map (System.pair · p) Action.sender
  intro x a x' _ hs
  refine ⟨⟨trivial, trivial⟩, ?_⟩
  show (SendData.step x a).map _ = _
  rw [hs]
  rfl

theorem reach_receiver {x : Sender} {packets : List Datagram} {p q : Receiver × ℤ}
    (hpackets : ∀ d ∈ packets, d ∈ x.sent)
    (h : Run.Reach (Run.observe ReceiveData.step seeNo) (fun p a => Arrives packets p.2 a) p q) :
    Run.Reach step (fun s a => Delivers s a ∧ Early s a) (System.pair x p) (System.pair x q) := by
  apply h.map (System.pair x) (Action.receiver 0)
  intro p a p' ha hs
  obtain ⟨hs, hsee⟩ := Run.observe_eq_some.mp hs
  have hreceiver : (System.pair x p).receivers 0 = some p.1 := pair_receivers x p
  have hlast : (System.pair x p).last 0 = p.2 := rfl
  refine ⟨⟨?_, trivial⟩, ?_⟩
  · cases a with
    | receive top now d => exact fun e he => ⟨hpackets d ha.1, hlast.trans_le (ha.2 e he)⟩
    | _ => trivial
  · rw [step, hreceiver, hlast]
    simp only [Option.bind_eq_bind, Option.bind_some, hs, ← hsee, System.pair, Function.update_idem]

/-- The sender with the slice of the byte 7, before `fec_encode_slice`. -/
def formedOne : Option Sender :=
  (Sender.start (withFec 513 128) firstParticipant).bind fun x =>
    Run.exec SendData.step (fun _ _ => True) x formOne

/-- The parity blocks of the slice, which is in slot `idx`. -/
def encodedOne (idx : Fin 8) : List (List UInt8) :=
  ((formedOne.bind (fecEncodeSlice · idx)).map fun x => (x.slices idx).fecData).getD []

/-- The sender with the parity blocks. -/
def encoded (idx : Fin 8) (x : Sender) : Sender :=
  { x.modify idx fun slice => { slice with fecData := encodedOne idx } with phase := .sending idx }

/-- The sender after the first transmission of the slice. -/
def sentOne (idx : Fin 8) (x : Sender) : Sender :=
  { requested (transmitted (encoded idx x) idx
      (firstPackets (oneByte 7) 513 128 0 (encodedOne idx))) idx with
    pending := [idx], phase := .top }

/-- The run to this state, and what is read off it. -/
structure FormedOne (x₀ x : Sender) : Prop where
  start : Sender.start (withFec 513 128) firstParticipant = some x₀
  reach : Run.Reach SendData.step (fun _ _ => True) x₀ x
  eq : formedOne = some x
  phase : x.phase = .encoding 0
  pending : x.pending = []
  async : x.config.hasFlag flagAsync = false
  rxmitId : (x.slices 0).rxmitId = 0
  input : x.input = [7]
  sent : x.sent = []
  block : (x.slices 0).fecData.getD 65536 [] = [0, 0, 0, 0]
  formed : Formed (oneByte 7) 513 128 0 0 x

set_option maxRecDepth 10000 in
/-- The parity blocks of the stripes without data are those of the start. -/
theorem formedOne_block :
    formedOne.map (fun x => (x.slices 0).fecData.getD 65536 []) = some [0, 0, 0, 0] := by
  decide +kernel

theorem exists_formedOne : ∃ x₀ x, FormedOne x₀ x := by
  have hexec : ((Sender.start (withFec 513 128) firstParticipant).bind fun x₀ =>
      (Run.exec SendData.step (fun _ _ => True) x₀ formOne).map fun x => (x₀, x)).map
      (fun p => decide (p.2.phase = .encoding 0 ∧ p.2.pending = [] ∧
        p.2.config.hasFlag flagAsync = false ∧ (p.2.slices 0).rxmitId = 0 ∧ p.2.input = [7] ∧
        p.2.sent = [] ∧ p.2.config.blockSize = 4 ∧ p.2.config.hasFlag flagFec = true ∧
        p.2.fifo.dataBufSize = 4 * 4096 ∧ (p.2.slices 0).sliceNo = 0 ∧ (p.2.slices 0).bytes = 1 ∧
        Ring.window p.2.fifo.dataBufSize (p.2.slices 0).base 1 p.2.fifo.buffer = [7])) = some true := by
    decide +kernel
  obtain ⟨⟨x₀, x⟩, hs, hp⟩ := Option.map_eq_some_iff.mp hexec
  obtain ⟨x₀', hstart, hs⟩ := Option.bind_eq_some_iff.mp hs
  obtain ⟨x', hx, heq⟩ := Option.map_eq_some_iff.mp hs
  obtain ⟨rfl, rfl⟩ := Prod.mk.inj heq
  obtain ⟨hphase, hpending, hasync, hrxmit, hinput, hsent, hsize, hfec, hring, hno, hbytes,
    hcontent⟩ := of_decide_eq_true hp
  have hreach := Run.reach_of_exec hx
  obtain ⟨-, hparity⟩ := hreach.invariant (I := fun x => Sound x ∧ HasParity 513 128 x)
    ⟨sound_start hstart, hasParity_start (by decide) hstart⟩ fun x a x' h _ hs =>
      ⟨h.1.step (step_cases hs), h.2.step h.1.control (step_cases hs)⟩
  have hformed : formedOne = some x' := by
    rw [formedOne, hstart, Option.bind_some]
    exact hx
  refine ⟨x₀', x', hstart, hreach, hformed, hphase, hpending, hasync, hrxmit, hinput, hsent, ?_, ?_⟩
  · have hblock := formedOne_block
    rw [hformed] at hblock
    exact Option.some.inj hblock
  · exact {
      blockSize := hsize
      fecFlag := hfec
      fecStripes := hparity.fecStripes
      fecRedundancy := hparity.fecRedundancy
      ringSize := by rw [hring, hsize]
      sliceNo := hno
      bytes := hbytes
      size_pos := by decide
      content := hcontent
      fecData := by
        have hblocks := hparity.blocks 0
        rw [hsize] at hblocks
        exact hblocks }

section FormedOne

variable {x₀ x : Sender}

theorem FormedOne.encode (h : FormedOne x₀ x) : SendData.step x .advance = some (encoded 0 x) ∧
    Encoded (oneByte 7) 513 128 0 (x.slices 0).fecData (List.range 513) (encodedOne 0) := by
  obtain ⟨fecData, hencode, hfec⟩ := h.formed.fecEncodeSlice (by decide) fun stripe hlt =>
    Transfer.length_stripeOf_le (oneByte_stripesFit 7 (by decide)) List.mem_cons_self hlt
  have hdata : encodedOne 0 = fecData := by
    rw [encodedOne, h.eq, Option.bind_some, hencode, Option.map_some, SendData.modify_slices_self,
      Option.getD_some]
  rw [hdata]
  refine ⟨?_, hfec⟩
  show advance x = _
  rw [advance, h.phase]
  show (fecEncodeSlice x 0).map _ = _
  rw [hencode, Option.map_some, encoded, hdata]

theorem FormedOne.transmit (h : FormedOne x₀ x) :
    SendData.step (encoded 0 x) .advance = some (sentOne 0 x) := by
  have hslot : ((encoded 0 x).slices 0).fecData = encodedOne 0 := by
    rw [encoded, SendData.modify_slices_self]
  have hformed : Formed (oneByte 7) 513 128 0 0 (encoded 0 x) :=
    (h.formed.withParity h.encode.2.blocks).congr rfl rfl rfl
  have hsend := hformed.sendBlocks_eq
  rw [hslot] at hsend
  have hasync : ¬((encoded 0 x).config.hasFlag flagAsync = true ∧ ((encoded 0 x).slices 0).bytes ≠ 0) := by
    rintro ⟨hasync, -⟩
    exact Bool.false_ne_true (h.async.symm.trans hasync)
  show advance (encoded 0 x) = _
  rw [advance]
  show SendData.transmit (encoded 0 x) 0 = _
  rw [transmit_eq hsend hasync, sentOne]
  show some { requested _ 0 with pending := x.pending ++ [0], phase := .top } = _
  rw [h.pending, List.nil_append]

theorem FormedOne.sent_eq (h : FormedOne x₀ x) :
    (sentOne 0 x).sent = firstPackets (oneByte 7) 513 128 0 (encodedOne 0) ++ [.reqack ⟨0, 1, 0⟩] := by
  have hreqack : reqackOf ((encoded 0 x).slices 0) = .reqack ⟨0, 1, 0⟩ := by
    rw [encoded, SendData.modify_slices_self, reqackOf]
    dsimp only
    rw [h.formed.sliceNo, h.formed.bytes, h.rxmitId]
    decide
  show x.sent ++ firstPackets (oneByte 7) 513 128 0 (encodedOne 0) ++ [reqackOf _] = _
  rw [reqackOf_transmitted, hreqack, h.sent, List.nil_append]

theorem FormedOne.sends (h : FormedOne x₀ x) :
    ∀ d ∈ [.fec ⟨513, 0, 0, 1⟩ [0, 0, 0, 0], .reqack ⟨0, 1, 0⟩], d ∈ (sentOne 0 x).sent := by
  have hblock : (encodedOne 0).getD 65536 [] = [0, 0, 0, 0] := by
    rw [h.encode.2.kept 65536 (by decide) (by decide +kernel)]
    exact h.block
  have hmem := @fec_mem_firstPackets (oneByte 7) 513 128 0 (encodedOne 0) 65536 (by decide)
  have hheader : (⟨asI16 (asI32 513), 0, asU16 65536, (oneByte 7).size 0⟩ : FecBlock) = ⟨513, 0, 0, 1⟩ := by
    decide
  rw [hblock, hheader] at hmem
  intro d hd
  rw [h.sent_eq]
  rcases List.mem_cons.mp hd with rfl | hd
  · exact List.mem_append_left _ hmem
  · exact List.mem_append_right _ hd

set_option maxRecDepth 10000 in
theorem FormedOne.acks (h : FormedOne x₀ x) :
    ∃ y, Run.Reach SendData.step (fun _ _ => True) (sentOne 0 x) y ∧ y.phase = .sending 0 ∧
      (y.slices 0).sliceNo = 1 ∧ (y.slices 0).bytes = 0 ∧ (y.slices 0).rxmitId = 0 ∧
      y.input = [7] := by
  have hexec : ((formedOne.map (sentOne 0)).bind fun x =>
      Run.exec SendData.step (fun _ _ => True) x ackOne).map
      (fun y => decide (y.phase = .sending 0 ∧ (y.slices 0).sliceNo = 1 ∧ (y.slices 0).bytes = 0 ∧
        (y.slices 0).rxmitId = 0 ∧ y.input = [7])) = some true := by
    decide +kernel
  rw [h.eq, Option.map_some, Option.bind_some] at hexec
  obtain ⟨y, hy, hp⟩ := Option.map_eq_some_iff.mp hexec
  exact ⟨y, Run.reach_of_exec hy, of_decide_eq_true hp⟩

theorem FormedOne.ends (h : FormedOne x₀ x) :
    ∃ z, Run.Reach SendData.step (fun _ _ => True) (sentOne 0 x) z ∧ .reqack ⟨1, 0, 0⟩ ∈ z.sent ∧
      z.input = [7] := by
  obtain ⟨y, hy, hphase, hno, hbytes, hrxmit, hinput⟩ := h.acks
  have hstep : SendData.step y .advance = some { requested (transmitted y 0 []) 0 with
      pending := y.pending ++ [0], phase := .top } := by
    show advance y = _
    rw [advance, hphase]
    exact transmit_eq (sendBlocks_end hbytes) fun hasync => hasync.2 hbytes
  refine ⟨_, Run.Reach.next .advance hy trivial hstep, ?_, hinput⟩
  have hreqack : reqackOf (y.slices 0) = .reqack ⟨1, 0, 0⟩ := by
    rw [reqackOf, hno, hbytes, hrxmit]
    rfl
  rw [← hreqack, ← reqackOf_transmitted y 0 []]
  exact List.mem_append_right _ (List.mem_singleton_self _)

/-- The receiver takes parity block 65536 for parity block 0. -/
theorem exists_misread : ∃ p q : Receiver × ℤ,
    Run.Reach (Run.observe ReceiveData.step seeNo)
      (fun p a => Arrives [.fec ⟨513, 0, 0, 1⟩ [0, 0, 0, 0], .reqack ⟨0, 1, 0⟩] p.2 a)
      (Receiver.start 4 500 [] (Fifo.fresh 4), -1) p ∧
    Run.Reach (Run.observe ReceiveData.step seeNo) (fun p a => Arrives [.reqack ⟨1, 0, 0⟩] p.2 a) p q ∧
    q.1.atEnd = true ∧ q.1.passed = [0] ∧ ReceiveData.Event.ok 0 ∈ q.1.trace := by
  have hexec : ((Run.exec (Run.observe ReceiveData.step seeNo)
      (fun p a => Arrives [.fec ⟨513, 0, 0, 1⟩ [0, 0, 0, 0], .reqack ⟨0, 1, 0⟩] p.2 a)
      (Receiver.start 4 500 [] (Fifo.fresh 4), -1)
      (takesParity (.fec ⟨513, 0, 0, 1⟩ [0, 0, 0, 0]))).bind fun p =>
        (Run.exec (Run.observe ReceiveData.step seeNo)
          (fun p a => Arrives [.reqack ⟨1, 0, 0⟩] p.2 a) p takesEnd).map fun q => (p, q)).map
      (fun w => decide (w.2.1.atEnd = true ∧ w.2.1.passed = [0] ∧ ReceiveData.Event.ok 0 ∈ w.2.1.trace))
      = some true := by
    decide +kernel
  obtain ⟨⟨p, q⟩, hs, hp⟩ := Option.map_eq_some_iff.mp hexec
  obtain ⟨p', hfirst, hs⟩ := Option.bind_eq_some_iff.mp hs
  obtain ⟨q', hsecond, heq⟩ := Option.map_eq_some_iff.mp hs
  obtain ⟨rfl, rfl⟩ := Prod.mk.inj heq
  exact ⟨p', q', Run.reach_of_exec hfirst, Run.reach_of_exec hsecond, of_decide_eq_true hp⟩

theorem FormedOne.join (h : FormedOne x₀ x) :
    step (System.start x₀) (.join 0 500 [])
      = some (System.pair x₀ (Receiver.start 4 500 [] (Fifo.fresh 4), -1)) := by
  have hsize : x₀.config.blockSize = 4 := start_blockSize h.start
  have hfifo : Fifo.new x₀.config.blockSize = some (Fifo.fresh 4) := by
    rw [hsize, Fifo.new_eq (by decide)]
  show (Fifo.new x₀.config.blockSize).map _ = _
  rw [hfifo, Option.map_some, System.pair, ← hsize]
  rfl

end FormedOne

/-- With `--fec 513x128`: of the byte 7 the receiver gets parity block 65536 alone.  It stores the byte
0, sends its OK, and ends at the end marker. -/
theorem produce_end_misread : ∃ x₀ s r, (withFec 513 128).maxInFlight = 1 ∧ SlicesFit (withFec 513 128) ∧
    Sender.start (withFec 513 128) firstParticipant = some x₀ ∧
    Run.Reach step (fun s a => Delivers s a ∧ Early s a) (System.start x₀) s ∧
    s.receivers 0 = some r ∧ ReceiveData.Event.ok 0 ∈ r.trace ∧ r.atEnd = true ∧
    s.sender.input = [7] ∧ r.passed = [0] := by
  obtain ⟨x₀, x, h⟩ := exists_formedOne
  obtain ⟨z, hz, hmarker, hinput⟩ := h.ends
  obtain ⟨p, q, hp, hq, hend, hpassed, hok⟩ := exists_misread
  have hsent : Run.Reach SendData.step (fun _ _ => True) x₀ (sentOne 0 x) :=
    Run.Reach.next .advance (Run.Reach.next .advance h.reach trivial h.encode.1) trivial h.transmit
  have hjoined : Run.Reach step (fun s a => Delivers s a ∧ Early s a) (System.start x₀)
      (System.pair x₀ (Receiver.start 4 500 [] (Fifo.fresh 4), -1)) :=
    Run.Reach.next (.join 0 500 []) Run.Reach.start
      ⟨fun d hd => absurd hd List.not_mem_nil, start_cuts h.start, rfl⟩ h.join
  have hmarked : ∀ d ∈ [Datagram.reqack ⟨1, 0, 0⟩], d ∈ z.sent := fun d hd => by
    rw [List.mem_singleton.mp hd]
    exact hmarker
  refine ⟨x₀, System.pair z q, q.1, withFec_one 513 128, withFec_slicesFit 128 (by decide), h.start, ?_,
    pair_receivers z q, hok, hend, hinput, hpassed⟩
  exact (hjoined.trans (reach_sender _ hsent)).trans ((reach_receiver h.sends hp).trans
    ((reach_sender p hz).trans (reach_receiver hmarked hq)))

end Udpcast.EndToEnd
