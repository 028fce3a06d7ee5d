import Udpcast.ReceiveData.Room
import Udpcast.SendData.Acks
import Udpcast.SendData.Cuts

/-!
# The waits for the ring

Each ring has two parties that wait for each other: one for free memory, the other for data.  At
most three slices are in flight at the sender, so that at least a quarter of its ring is either
free or has data that is not cut; at the receiver the ring is free but for what the writer has not
written, and a slice that completes takes no more than `new_slice` has waited for.
-/

namespace Udpcast

namespace SendData

/-- `local_reader_fifo` waits for free memory. -/
def ReaderWaits (x : Sender) : Prop :=
  x.reader = .waiting ∧ x.fifo.freeMemQueue.consumeContiguousMinAmount ioBlockSize = none

/-- `spawn_net_sender` waits for data for a new slice. -/
def SenderWaits (x : Sender) : Prop :=
  x.phase = .forming ∧ x.pending.length < x.config.maxInFlight ∧ x.atEnd = false ∧
    findFreeSlice x ≠ none ∧ x.fifo.data.consume (10 * x.config.blockSize) = none

instance (x : Sender) : Decidable (ReaderWaits x) := inferInstanceAs (Decidable (_ ∧ _))
instance (x : Sender) : Decidable (SenderWaits x) := inferInstanceAs (Decidable (_ ∧ _))

/-- The slices in flight are cut and pending while no new one is sent. -/
theorem inFlightBytes_le {x : Sender} (hc : Control x) (hcut : Cut x) (hphase : x.phase = .forming)
    {m : ℕ} (hm : ∀ n ∈ x.cuts, n ≤ m) : inFlightBytes x ≤ x.pending.length * m := by
  have hpending : ∀ i, (x.slices i).inFlight → i ∈ x.pending := fun i hi => by
    rcases hi with hnew | hx
    · rcases hc.new i hnew with hp | hp
      · rw [hphase] at hp
        cases hp
      · rw [hphase] at hp
        cases hp
    · exact hc.xmitted i hx
  have hbytes : ∀ i, (x.slices i).inFlight → (x.slices i).bytes ≤ m := fun i hi => by
    obtain ⟨h0, hlt, hb, -⟩ := hcut.slot i hi
    rw [hb, List.getD_eq_getElem _ _ (by omega)]
    exact hm _ (List.getElem_mem _)
  calc inFlightBytes x
      ≤ ∑ i, if i ∈ x.pending.toFinset then m else 0 := by
        refine Finset.sum_le_sum fun i _ => ?_
        by_cases hi : (x.slices i).inFlight
        · rw [if_pos hi, if_pos (List.mem_toFinset.mpr (hpending i hi))]
          exact hbytes i hi
        · rw [if_neg hi]
          exact Nat.zero_le _
    _ = x.pending.toFinset.card * m := by
        rw [Finset.sum_ite_mem, Finset.univ_inter, Finset.sum_const, smul_eq_mul]
    _ ≤ x.pending.length * m := Nat.mul_le_mul_right _ (List.toFinset_card_le _)

theorem maxInFlight_le (c : NetConfig) : c.maxInFlight ≤ 3 := by
  rw [NetConfig.maxInFlight]
  split
  · decide
  · decide

theorem ReaderWaits.room {x : Sender} {F R P D : ℕ} (h : ReaderWaits x) (hq : Queues x F R P D) :
    R = P ∧ F < R + ioBlockSize := by
  have hahead := hq.ahead
  rw [h.1] at hahead
  refine ⟨hahead.2, ?_⟩
  by_contra hge
  have hready : x.fifo.freeMemQueue.consume ioBlockSize = some x.fifo.freeMemQueue.getWaiting :=
    if_pos (Or.inl (by rw [hq.free.getWaiting]; omega))
  have hnone := h.2
  rw [Produconsum.consumeContiguousMinAmount, hready] at hnone
  cases hnone

/-- The reader and the main loop never wait for each other. -/
theorem not_waits {x : Sender} {F R P D : ℕ} (hq : Queues x F R P D) (hc : Control x) (hcut : Cut x)
    (hblock : 4 ≤ x.config.blockSize) (hcuts : ∀ n ∈ x.cuts, n ≤ maxSliceSize * x.config.blockSize) :
    ¬ (ReaderWaits x ∧ SenderWaits x) := by
  rintro ⟨hreader, hphase, hpending, -, -, hdata⟩
  obtain ⟨hRP, hroom⟩ := hreader.room hq
  have hwait : P < D + 10 * x.config.blockSize := by
    by_contra hge
    rw [Produconsum.consume, if_pos (Or.inl (by rw [hq.data.getWaiting]; omega))] at hdata
    cases hdata
  have hflight := inFlightBytes_le hc hcut hphase hcuts
  have hthree := maxInFlight_le x.config
  have htwo : x.pending.length * (maxSliceSize * x.config.blockSize)
      ≤ 2 * (maxSliceSize * x.config.blockSize) := Nat.mul_le_mul_right _ (by omega)
  have hret := hq.returned
  have hsize := hq.size
  simp only [maxSliceSize, ioBlockSize] at *
  omega

end SendData

namespace ReceiveData

/-- `writer` waits for data. -/
def WriterWaits (r : Receiver) : Prop :=
  r.writer = .waiting ∧ r.fifo.data.consumeContiguousMinAmount ioBlockSize = none

instance (r : Receiver) : Decidable (WriterWaits r) := inferInstanceAs (Decidable (_ ∧ _))

/-- `new_slice` and the writer never wait for each other. -/
theorem Queues.not_waits {r : Receiver} {C D F : ℕ} (hq : Queues r C D F) (hblock : 4 ≤ r.blockSize)
    (s : ℤ) : ¬ (newSlice r s = none ∧ WriterWaits r) := by
  rintro ⟨hnew, hwaiting, hdata⟩
  have hmem : F < C + r.blockSize * maxSliceSize := by
    by_contra hge
    have hready : r.fifo.freeMemQueue.consume (r.blockSize * maxSliceSize)
        = some r.fifo.freeMemQueue.getWaiting :=
      if_pos (Or.inl (by rw [hq.free.getWaiting]; omega))
    rw [newSlice] at hnew
    cases hfree : freeSlot r with
    | none =>
      rw [hfree] at hnew
      cases hnew
    | some i =>
      rw [hfree] at hnew
      simp only [hready, Option.map_some] at hnew
      cases hnew
  have hwait : C < D + ioBlockSize := by
    by_contra hge
    have hready : r.fifo.data.consume ioBlockSize = some r.fifo.data.getWaiting :=
      if_pos (Or.inl (by rw [hq.data.getWaiting]; omega))
    rw [Produconsum.consumeContiguousMinAmount, hready] at hdata
    cases hdata
  have hrel := hq.released
  rw [hwaiting] at hrel
  have hsize := hq.size
  simp only [Released, maxSliceSize, ioBlockSize] at *
  omega

end ReceiveData

/-- At neither side do the two parties of the ring wait for each other: not the reader and the main
loop of the sender, when all slices have at most 1024 blocks, and not `new_slice` and the writer,
whatever datagrams arrive, when at most one slice at a time is in state Receiving. -/
theorem ring_noDeadlock :
    (∀ (config : SendData.NetConfig) (db : ParticipantsDb) (x₀ x : SendData.Sender),
      4 ≤ config.blockSize → SendData.Sender.start config db = some x₀ →
      Run.Reach SendData.step (fun _ _ => True) x₀ x →
      (∀ n ∈ x.cuts, n ≤ maxSliceSize * config.blockSize) →
      ¬ (SendData.ReaderWaits x ∧ SendData.SenderWaits x)) ∧
    ∀ (blockSize exitWait : ℕ) (late : List (ℤ × ℤ × ℤ)) (fifo : Fifo) (r : ReceiveData.Receiver)
      (s : ℤ), 4 ≤ blockSize → Fifo.new blockSize = some fifo →
      Run.Reach ReceiveData.step ReceiveData.OneAtATime
        (ReceiveData.Receiver.start blockSize exitWait late fifo) r →
      ¬ (ReceiveData.newSlice r s = none ∧ ReceiveData.WriterWaits r) := by
  constructor
  · intro config db x₀ x hblock hstart hrun hcuts
    obtain ⟨hb, hcut, hc, F, R, P, D, hq⟩ := hrun.invariant
      (I := fun x => x.config.blockSize = config.blockSize ∧ SendData.Cut x ∧ SendData.Control x ∧
        ∃ F R P D, SendData.Queues x F R P D)
      ⟨SendData.start_blockSize hstart, SendData.cut_start hstart, SendData.control_start hstart,
        _, _, _, _, SendData.queues_start hstart⟩ fun s a s' ⟨hb, hcut, hc, F, R, P, D, hq⟩ _ hs =>
        have hs' := SendData.step_cases hs
        have hm := hs'.moves hc
        ⟨hm.blockSize.trans hb, hcut.moves hq hm, hc.step hs', hq.step hc hs'⟩
    exact SendData.not_waits hq hc hcut (by rw [hb]; exact hblock) (by rw [hb]; exact hcuts)
  · intro blockSize exitWait late fifo r s hblock hfifo hrun
    have hroom := hrun.invariant (I := ReceiveData.Room blockSize)
      (ReceiveData.room_start exitWait late (by omega) hfifo) fun r a r' h hone hs =>
        h.step (hone.oneReceiving hs) (ReceiveData.step_cases hs)
    obtain ⟨C, D, F, hq, -⟩ := hroom.queues
    exact hq.not_waits (by rw [hroom.size_eq]; exact hblock) s

/-- A DATA and a REQACK packet give a slice different sizes. -/
def twoSizes : List ReceiveData.Action :=
  [.seed, .receive 0 0 (.data ⟨0, 0, 8⟩ [1, 2, 3, 4]), .scan 0, .receive 0 0 (.reqack ⟨0, 12, 0⟩),
    .scan 0]

/-- The ring of the sender is full, and a slice is being received. -/
theorem ring_noDeadlock_fullAndEmpty : ∃ x r, SendData.ReaderWaits x ∧
    ¬ (SendData.ReaderWaits x ∧ SendData.SenderWaits x) ∧ (r.slices 0).state = .receiving ∧
    ReceiveData.WriterWaits r ∧ ¬ (ReceiveData.newSlice r 1 = none ∧ ReceiveData.WriterWaits r) := by
  have hexec : ((SendData.Sender.start SendData.halfDuplex SendData.twoParticipants).bind fun x =>
      Run.exec SendData.step (fun _ _ => True) x
        (List.replicate 4 (SendData.readBytes (List.replicate 4096 0))).flatten).map
      (fun x => decide (SendData.ReaderWaits x ∧ x.cuts = [])) = some true := by decide +kernel
  obtain ⟨x, hx, hp⟩ := Option.map_eq_some_iff.mp hexec
  obtain ⟨x₀, hstart, hx⟩ := Option.bind_eq_some_iff.mp hx
  obtain ⟨hwaits, hcuts⟩ := of_decide_eq_true hp
  have hexec' : (Run.exec ReceiveData.step ReceiveData.OneAtATime
      (ReceiveData.Receiver.start 4 500 [] (Fifo.fresh 4)) twoSizes).map
      (fun r => decide ((r.slices 0).state = .receiving ∧ ReceiveData.WriterWaits r)) = some true := by
    decide +kernel
  obtain ⟨r, hr, hp'⟩ := Option.map_eq_some_iff.mp hexec'
  obtain ⟨hreceiving, hwaits'⟩ := of_decide_eq_true hp'
  exact ⟨x, r, hwaits, ring_noDeadlock.1 SendData.halfDuplex SendData.twoParticipants x₀ x (by decide)
    hstart (Run.reach_of_exec hx) (by rw [hcuts]; simp), hreceiving, hwaits',
    ring_noDeadlock.2 4 500 [] _ r 1 le_rfl (Fifo.new_eq (by decide)) (Run.reach_of_exec hr)⟩

end Udpcast
