import Udpcast.SendData.Table

/-!
# The two queues of the sender

In terms of totals: `F` bytes of free memory have been produced and `R` of them consumed by the
reader, which has produced `P` bytes into `data`; the main loop has cut `D` of these into slices.
What has not come back as free memory is in flight.
-/

namespace Udpcast.SendData

open Sender

/-- The bytes of the slices in flight. -/
def inFlightBytes (x : Sender) : ℕ :=
  ∑ i, if (x.slices i).inFlight then (x.slices i).bytes else 0

/-- What the reader has read, consumed and produced, in each of its states. -/
def ReadAhead (N : ℕ) (input : List UInt8) (F R P : ℕ) : ReaderPhase → Prop
  | .waiting => input.length = P ∧ R = P
  | .reading pos n => input.length = P ∧ R = P ∧ pos = R % N ∧ R + n ≤ F
  | .got pos buf => input.length = P + buf.length ∧ R = P ∧ input.drop P = buf ∧ pos = P % N ∧
      P + buf.length ≤ F
  | .consumed pos buf => input.length = R ∧ R = P + buf.length ∧ input.drop P = buf ∧ pos = P % N
  | .written n => input.length = R ∧ R = P + n
  | .returned => input.length = P ∧ R = P

theorem ReadAhead.mono {N F F' R P : ℕ} {input : List UInt8} {p : ReaderPhase}
    (h : ReadAhead N input F R P p) (hF : F ≤ F') : ReadAhead N input F' R P p := by
  cases p with
  | waiting => exact h
  | reading pos n => exact ⟨h.1, h.2.1, h.2.2.1, h.2.2.2.trans hF⟩
  | got pos buf => exact ⟨h.1, h.2.1, h.2.2.1, h.2.2.2.1, h.2.2.2.2.trans hF⟩
  | consumed pos buf => exact h
  | written n => exact h
  | returned => exact h

structure Queues (x : Sender) (F R P D : ℕ) : Prop where
  size : x.fifo.dataBufSize = x.config.blockSize * 4096
  freeSize : x.fifo.freeMemQueue.size = x.fifo.dataBufSize
  dataSize : x.fifo.data.size = x.fifo.dataBufSize
  free : x.fifo.freeMemQueue.Counts F R
  data : x.fifo.data.Counts P D
  cut : x.cuts.sum = D
  returned : F + inFlightBytes x = x.fifo.dataBufSize + D
  ahead : ReadAhead x.fifo.dataBufSize x.input F R P x.reader
  /-- The reader is at its end when it has marked it. -/
  dataEnd : x.fifo.data.inner.atEnd = true → x.reader = .returned

/-! ### The bytes in flight -/

theorem sum_update {f g : Fin 8 → ℕ} {i : Fin 8} (h : ∀ j, j ≠ i → g j = f j) :
    ∑ j, g j + f i = ∑ j, f j + g i := by
  have hf := Finset.add_sum_erase Finset.univ f (Finset.mem_univ i)
  have hg := Finset.add_sum_erase Finset.univ g (Finset.mem_univ i)
  have hrest : ∑ j ∈ Finset.univ.erase i, g j = ∑ j ∈ Finset.univ.erase i, f j :=
    Finset.sum_congr rfl fun j hj => h j (Finset.ne_of_mem_erase hj)
  omega

theorem inFlightBytes_congr {x x' : Sender} (h : ∀ j, ((x'.slices j).inFlight ↔ (x.slices j).inFlight) ∧
    (x'.slices j).bytes = (x.slices j).bytes) : inFlightBytes x' = inFlightBytes x := by
  refine Finset.sum_congr rfl fun j _ => ?_
  rw [(h j).2]
  simp only [(h j).1]

theorem inFlightBytes_freed {x x' : Sender} {i : Fin 8} (hi : (x.slices i).inFlight)
    (hself : ¬ (x'.slices i).inFlight) (hother : ∀ j, j ≠ i → x'.slices j = x.slices j) :
    inFlightBytes x' + (x.slices i).bytes = inFlightBytes x := by
  have h := sum_update (i := i) (f := fun j => if (x.slices j).inFlight then (x.slices j).bytes else 0)
    (g := fun j => if (x'.slices j).inFlight then (x'.slices j).bytes else 0)
    fun j hj => by simp only [hother j hj]
  simp only [if_pos hi, if_neg hself, Nat.add_zero] at h
  exact h

theorem inFlightBytes_formed {x : Sender} {pos : Fin 8} (hfree : (x.slices pos).state = .free)
    (bytes : ℕ) (data : Produconsum) :
    inFlightBytes (formed x pos bytes data) = inFlightBytes x + bytes := by
  have hself : ((formed x pos bytes data).slices pos).inFlight := by
    rw [formed_slices_self]
    exact Or.inl rfl
  have hnot : ¬ (x.slices pos).inFlight := by simp [Slice.inFlight, hfree]
  have h := sum_update (i := pos)
    (f := fun j => if (x.slices j).inFlight then (x.slices j).bytes else 0)
    (g := fun j => if ((formed x pos bytes data).slices j).inFlight
      then ((formed x pos bytes data).slices j).bytes else 0)
    fun j hj => by simp only [formed_slices_of_ne x bytes data hj]
  simp only [if_neg hnot, Nat.add_zero, formed_slices_self] at h
  exact h

theorem SameSlice.inFlight_iff {s s' : Slice} (h : SameSlice s s') : s'.inFlight ↔ s.inFlight := by
  rw [Slice.inFlight, Slice.inFlight, h.state]

namespace Queues

variable {x x' : Sender} {F R P D : ℕ}

theorem pos (h : Queues x F R P D) : 0 < x.fifo.dataBufSize := by
  have := x.config.blockSize_pos
  rw [h.size]
  omega

/-- What is read is at most one turn of the ring ahead of what has been cut. -/
theorem le (h : Queues x F R P D) : D ≤ P ∧ P ≤ R ∧ R ≤ F ∧ F ≤ x.fifo.dataBufSize + D ∧
    P ≤ x.input.length := by
  have hret := h.returned
  have hahead := h.ahead
  have hread : P ≤ R ∧ P ≤ x.input.length := by
    cases hr : x.reader with
    | waiting => rw [hr] at hahead; exact ⟨hahead.2.ge, hahead.1.ge⟩
    | reading pos n => rw [hr] at hahead; exact ⟨hahead.2.1.ge, hahead.1.ge⟩
    | got pos buf =>
      rw [hr] at hahead
      have h1 := hahead.1
      have h2 := hahead.2.1
      omega
    | consumed pos buf =>
      rw [hr] at hahead
      have h1 := hahead.1
      have h2 := hahead.2.1
      omega
    | written n =>
      rw [hr] at hahead
      have h1 := hahead.1
      have h2 := hahead.2
      omega
    | returned => rw [hr] at hahead; exact ⟨hahead.2.ge, hahead.1.ge⟩
  exact ⟨h.data.le, hread.1, h.free.le, by omega, hread.2⟩

theorem congr (h : Queues x F R P D) (hb : x'.config.blockSize = x.config.blockSize)
    (hs : x'.fifo.dataBufSize = x.fifo.dataBufSize)
    (hf : x'.fifo.freeMemQueue = x.fifo.freeMemQueue) (hd : x'.fifo.data = x.fifo.data)
    (hcuts : x'.cuts = x.cuts) (hflight : inFlightBytes x' = inFlightBytes x)
    (hr : x'.reader = x.reader) (hi : x'.input = x.input) : Queues x' F R P D where
  size := by rw [hs, hb, h.size]
  freeSize := by rw [hf, hs, h.freeSize]
  dataSize := by rw [hd, hs, h.dataSize]
  free := by rw [hf]; exact h.free
  data := by rw [hd]; exact h.data
  cut := by rw [hcuts, h.cut]
  returned := by rw [hflight, hs, h.returned]
  ahead := by rw [hr, hi, hs]; exact h.ahead
  dataEnd := by rw [hd, hr]; exact h.dataEnd

theorem released (h : Queues x F R P D) {i : Fin 8} {q : Produconsum}
    (hi : (x.slices i).inFlight) (hself : ¬ (x'.slices i).inFlight)
    (hother : ∀ j, j ≠ i → x'.slices j = x.slices j)
    (hq : x.fifo.freeMemQueue.produce (x.slices i).bytes = some q)
    (hb : x'.config.blockSize = x.config.blockSize)
    (hfifo : x'.fifo = { x.fifo with freeMemQueue := q }) (hcuts : x'.cuts = x.cuts)
    (hr : x'.reader = x.reader) (hinput : x'.input = x.input) :
    Queues x' (F + (x.slices i).bytes) R P D := by
  have hle := h.le
  have hflight := inFlightBytes_freed hi hself hother
  have hret := h.returned
  obtain ⟨p, hp, hc, -, hs⟩ := h.free.produce_eq (n := (x.slices i).bytes)
    (by rw [h.freeSize]; omega)
  rw [hq] at hp
  obtain rfl := Option.some.inj hp
  exact
    { size := by rw [hfifo, hb]; exact h.size
      freeSize := by rw [hfifo]; exact hs.trans h.freeSize
      dataSize := by rw [hfifo]; exact h.dataSize
      free := by rw [hfifo]; exact hc
      data := by rw [hfifo]; exact h.data
      cut := by rw [hcuts, h.cut]
      returned := by
        rw [hfifo]
        show _ = x.fifo.dataBufSize + D
        omega
      ahead := by
        rw [hr, hinput, hfifo]
        exact h.ahead.mono (Nat.le_add_right _ _)
      dataEnd := by rw [hfifo, hr]; exact h.dataEnd }

theorem finish (h : Queues x F R P D) : Queues (SendData.finish x) F R P D where
  size := h.size
  freeSize := h.freeSize
  dataSize := h.dataSize
  free := h.free.produceEnd
  data := h.data
  cut := h.cut
  returned := h.returned
  ahead := h.ahead
  dataEnd := h.dataEnd

theorem form (h : Queues x F R P D) {pos : Fin 8} {bytes m amount : ℕ} {data : Produconsum}
    (hfree : (x.slices pos).state = .free) (hm : x.fifo.data.consume amount = some m)
    (hcut : CutFrom x.config m bytes) (hdata : x.fifo.data.consumed bytes = some data) :
    Queues (formed x pos bytes data) F R P (D + bytes) := by
  have hle := h.le
  have hret := h.returned
  obtain ⟨hm', -⟩ := h.data.consume hm
  have hbytes := hcut.le
  obtain ⟨p, hp, hc, he, hs⟩ := h.data.consumed_eq (n := bytes) (by omega)
  rw [hdata] at hp
  obtain rfl := Option.some.inj hp
  exact
    { size := h.size
      freeSize := h.freeSize
      dataSize := hs.trans h.dataSize
      free := h.free
      data := hc
      cut := by
        show (x.cuts ++ [bytes]).sum = D + bytes
        rw [List.sum_append, h.cut, List.sum_singleton]
      returned := by
        rw [inFlightBytes_formed hfree]
        show _ = x.fifo.dataBufSize + (D + bytes)
        omega
      ahead := h.ahead
      dataEnd := fun hend => h.dataEnd (by rw [← he]; exact hend) }

/-! ### The reader -/

theorem readerWait (h : Queues x F R P D) (hr : x.reader = .waiting)
    (hw : readerWait x = some x') : Queues x' F R P D := by
  have hahead := h.ahead
  rw [hr] at hahead
  obtain ⟨m, hm, hw⟩ := Option.bind_eq_some_iff.mp hw
  obtain ⟨hmF, -, -, -⟩ := h.free.consumeContiguousMinAmount hm
  simp only at hw
  generalize hn : (if m > (x.fifo.freeMemQueue.getConsumerPosition + m) % ioBlockSize ∧
      (x.fifo.freeMemQueue.getConsumerPosition + m) % ioBlockSize ≠ 0
    then m - (x.fifo.freeMemQueue.getConsumerPosition + m) % ioBlockSize else m) = n at hw
  have hnm : n ≤ m := by
    rw [← hn]
    split
    · omega
    · exact le_rfl
  obtain rfl := Option.some.inj hw
  have hnotEnd : x.fifo.data.inner.atEnd ≠ true := fun hend => by
    have := h.dataEnd hend
    rw [hr] at this
    cases this
  have hle := h.free.le
  refine ⟨h.size, h.freeSize, h.dataSize, h.free, h.data, h.cut, h.returned, ?_,
    fun hend => absurd hend hnotEnd⟩
  show ReadAhead _ _ F R P (if n = 0 then .returned else .reading _ n)
  split
  · exact hahead
  · exact ⟨hahead.1, hahead.2, by rw [h.free.getConsumerPosition, h.freeSize], by omega⟩

theorem readEnd (h : Queues x F R P D) {pos n : ℕ} (hr : x.reader = .reading pos n) :
    Queues { x with fifo.data := x.fifo.data.produceEnd, reader := .returned } F R P D := by
  have hahead := h.ahead
  rw [hr] at hahead
  exact ⟨h.size, h.freeSize, h.dataSize, h.free, h.data.produceEnd, h.cut, h.returned,
    ⟨hahead.1, hahead.2.1⟩, fun _ => rfl⟩

theorem read (h : Queues x F R P D) {pos n : ℕ} {buf : List UInt8} (hr : x.reader = .reading pos n)
    (hlen : buf.length ≤ n) :
    Queues { x with input := x.input ++ buf, reader := .got pos buf } F R P D := by
  have hahead := h.ahead
  rw [hr] at hahead
  obtain ⟨hin, rfl, hpos, hroom⟩ := hahead
  refine ⟨h.size, h.freeSize, h.dataSize, h.free, h.data, h.cut, h.returned,
    ⟨?_, rfl, ?_, hpos, by omega⟩, fun hend => ?_⟩
  · show (x.input ++ buf).length = _
    rw [List.length_append, hin]
  · show (x.input ++ buf).drop _ = _
    rw [← hin, List.drop_left]
  · have := h.dataEnd hend
    rw [hr] at this
    cases this

theorem readerConsumed (h : Queues x F R P D) {pos : ℕ} {buf : List UInt8} {q : Produconsum}
    (hr : x.reader = .got pos buf) (hq : x.fifo.freeMemQueue.consumed buf.length = some q) :
    Queues { x with fifo.freeMemQueue := q, reader := .consumed pos buf } F (R + buf.length) P D := by
  have hahead := h.ahead
  rw [hr] at hahead
  obtain ⟨hin, rfl, hdrop, hpos, hroom⟩ := hahead
  obtain ⟨p, hp, hc, -, hs⟩ := h.free.consumed_eq (n := buf.length) (by omega)
  rw [hq] at hp
  obtain rfl := Option.some.inj hp
  refine ⟨h.size, hs.trans h.freeSize, h.dataSize, hc, h.data, h.cut, h.returned,
    ⟨hin, rfl, hdrop, hpos⟩, fun hend => ?_⟩
  have := h.dataEnd hend
  rw [hr] at this
  cases this

theorem readerWrite (h : Queues x F R P D) {pos : ℕ} {buf : List UInt8} {fifo : Fifo}
    (hr : x.reader = .consumed pos buf) (hw : x.fifo.writeAt pos buf = some fifo) :
    Queues { x with fifo := fifo, reader := .written buf.length } F R P D := by
  have hahead := h.ahead
  rw [hr] at hahead
  obtain ⟨hin, hR, -, -⟩ := hahead
  obtain rfl := Fifo.writeAt_frame hw
  refine ⟨h.size, h.freeSize, h.dataSize, h.free, h.data, h.cut, h.returned, ⟨hin, hR⟩,
    fun hend => ?_⟩
  have := h.dataEnd hend
  rw [hr] at this
  cases this

theorem readerProduced (h : Queues x F R P D) {n : ℕ} {q : Produconsum}
    (hr : x.reader = .written n) (hq : x.fifo.data.produce n = some q) :
    Queues { x with fifo.data := q, reader := .waiting } F R (P + n) D := by
  have hle := h.le
  have hahead := h.ahead
  rw [hr] at hahead
  obtain ⟨hin, rfl⟩ := hahead
  obtain ⟨p, hp, hc, he, hs⟩ := h.data.produce_eq (n := n) (by rw [h.dataSize]; omega)
  rw [hq] at hp
  obtain rfl := Option.some.inj hp
  refine ⟨h.size, h.freeSize, hs.trans h.dataSize, h.free, hc, h.cut, h.returned, ⟨hin, rfl⟩,
    fun hend => ?_⟩
  rw [show q.inner.atEnd = _ from he] at hend
  have := h.dataEnd hend
  rw [hr] at this
  cases this

/-! ### All steps -/

theorem step {a : Action} (h : Queues x F R P D) (hc : Control x) (hs : StepTo x a x') :
    ∃ F' R' P' D', Queues x' F' R' P' D' := by
  cases hs with
  | arrive _ _ => exact ⟨F, R, P, D, h.congr rfl rfl rfl rfl rfl rfl rfl rfl⟩
  | enqueue _ => exact ⟨F, R, P, D, h.congr rfl rfl rfl rfl rfl rfl rfl rfl⟩
  | @dispatch m rest _ _ =>
    obtain ⟨hsame, slices, db, trace, heq⟩ := handleMessage_frame { x with msgs := rest } m
    have hflight := inFlightBytes_congr (x := x) fun j => ⟨(hsame j).inFlight_iff, (hsame j).bytes⟩
    exact ⟨F, R, P, D, h.congr (by rw [heq]) (by rw [heq]) (by rw [heq]) (by rw [heq]) (by rw [heq])
      hflight (by rw [heq]) (by rw [heq])⟩
  | goto _ => exact ⟨F, R, P, D, h.congr rfl rfl rfl rfl rfl rfl rfl rfl⟩
  | retain _ => exact ⟨F, R, P, D, h.congr rfl rfl rfl rfl rfl rfl rfl rfl⟩
  | @acked i rest nr fr c q hphase _ hconfig hq =>
    obtain ⟨_, _, hc'⟩ := growSliceSize_eq hconfig
    have hself : ¬ ((SendData.released x i c q).slices i).inFlight := by
      rw [released_slices_self]
      simp [Slice.inFlight]
    exact ⟨_, R, P, D, h.released (Or.inr (hc.current (Or.inl ⟨nr, fr, hphase⟩))) hself
      (fun j hj => released_slices_of_ne x c q hj) hq
      (show c.blockSize = _ by rw [hc']) rfl rfl rfl rfl⟩
  | @rexmit i rest fl map good ds _ _ =>
    have hsame := fun j => sameSlice_modify (x := x) (f := fun s => s.rexmitted map good) (i := i)
      ⟨rfl, rfl, rfl, rfl, rfl⟩ j
    exact ⟨F, R, P, D, h.congr rfl rfl rfl rfl rfl
      (inFlightBytes_congr fun j => ⟨(hsame j).inFlight_iff, (hsame j).bytes⟩) rfl rfl⟩
  | @reqack i rest nr fr rxmitId _ _ =>
    have hsame := fun j => sameSlice_requested x i j rxmitId
    exact ⟨F, R, P, D, h.congr (reduceSliceSize_blockSize _ _) rfl rfl rfl rfl
      (inFlightBytes_congr fun j => ⟨(hsame j).inFlight_iff, (hsame j).bytes⟩) rfl rfl⟩
  | asyncRound hasync => exact absurd hasync hc.not_asyncRound
  | form _ _ _ hfree hm hcut hdata => exact ⟨F, R, P, _, h.form hfree hm hcut hdata⟩
  | finish _ => exact ⟨F, R, P, D, h.finish⟩
  | @encode i fecData _ _ =>
    have hsame : ∀ j, (((x.modify i fun s => { s with fecData := fecData }).slices j).inFlight
        ↔ (x.slices j).inFlight) ∧
        ((x.modify i fun s => { s with fecData := fecData }).slices j).bytes = (x.slices j).bytes := by
      intro j
      by_cases hji : j = i
      · rw [hji, modify_slices_self]
        exact ⟨Iff.rfl, rfl⟩
      · rw [modify_slices_of_ne _ _ _ hji]
        exact ⟨Iff.rfl, rfl⟩
    exact ⟨F, R, P, D, h.congr rfl rfl rfl rfl rfl (inFlightBytes_congr hsame) rfl rfl⟩
  | @transmit i ds hphase _ _ =>
    have hnew := hc.fresh i (Or.inr hphase)
    have hsame : ∀ j, (((requested (transmitted x i ds) i).slices j).inFlight
        ↔ (x.slices j).inFlight) ∧
        ((requested (transmitted x i ds) i).slices j).bytes = (x.slices j).bytes := by
      intro j
      by_cases hji : j = i
      · rw [hji, requested_slices_self, transmitted_slices_self]
        exact ⟨⟨fun _ => Or.inl hnew, fun _ => Or.inr rfl⟩, rfl⟩
      · rw [requested_slices_of_ne _ hji, transmitted_slices_of_ne _ _ hji]
        exact ⟨Iff.rfl, rfl⟩
    exact ⟨F, R, P, D, h.congr (reduceSliceSize_blockSize _ _) rfl rfl rfl rfl
      (inFlightBytes_congr hsame) rfl rfl⟩
  | @transmitAsync i ds c q hphase _ hconfig hq _ =>
    obtain ⟨_, _, hc'⟩ := growSliceSize_eq hconfig
    have hself : ¬ ((SendData.released (x.send ds) i c q).slices i).inFlight := by
      rw [released_slices_self]
      simp [Slice.inFlight]
    exact ⟨_, R, P, D, h.released (Or.inl (hc.fresh i (Or.inr hphase))) hself
      (fun j hj => released_slices_of_ne (x.send ds) c q hj) hq
      (show c.blockSize = _ by rw [hc']) rfl rfl rfl rfl⟩
  | @timeout i rest rxmitId _ _ =>
    have hsame := fun j => sameSlice_requested { x with db := afterDrop x i } i j rxmitId
    exact ⟨F, R, P, D, h.congr (reduceSliceSize_blockSize _ _) rfl rfl rfl rfl
      (inFlightBytes_congr fun j => ⟨(hsame j).inFlight_iff, (hsame j).bytes⟩) rfl rfl⟩
  | @allDropped i _ _ _ =>
    have hdb : Queues { x with db := afterDrop x i } F R P D :=
      h.congr rfl rfl rfl rfl rfl rfl rfl rfl
    exact ⟨F, R, P, D, hdb.finish⟩
  | readerWait hr hw => exact ⟨F, R, P, D, h.readerWait hr hw⟩
  | readEnd hr => exact ⟨F, R, P, D, h.readEnd hr⟩
  | read hr hlen => exact ⟨F, R, P, D, h.read hr hlen⟩
  | readerConsumed hr hq => exact ⟨F, _, P, D, h.readerConsumed hr hq⟩
  | readerWrite hr hw => exact ⟨F, R, P, D, h.readerWrite hr hw⟩
  | readerProduced hr hq => exact ⟨F, R, _, D, h.readerProduced hr hq⟩

end Queues

theorem queues_start {config : NetConfig} {db : ParticipantsDb} {x : Sender}
    (h : Sender.start config db = some x) : Queues x x.fifo.dataBufSize 0 0 0 := by
  have hb := start_blockSize h
  simp only [Sender.start, Option.bind_eq_bind, Option.bind_eq_some_iff] at h
  obtain ⟨fifo, hfifo, nrFec, -, c₁, -, c₂, -, h⟩ := h
  rw [Fifo.new_eq config.blockSize_pos] at hfifo
  obtain rfl := Option.some.inj hfifo
  obtain rfl := Option.some.inj h
  obtain ⟨hfree, hdata⟩ := Fifo.fresh_counts config.blockSize_pos
  exact
    { size := by
        show config.blockSize * 4096 = _
        rw [hb]
      freeSize := rfl
      dataSize := rfl
      free := hfree
      data := hdata
      cut := rfl
      returned := by
        simp [inFlightBytes, Slice.inFlight, Slice.new]
      ahead := ⟨rfl, rfl⟩
      dataEnd := fun hend => by cases hend }

end Udpcast.SendData
