import Udpcast.ReceiveData.Reassembly
import Udpcast.ReceiveData.Stored

/-!
# The bytes that pass through `fifo.data`

`complete_slice` hands the region of a slot over, behind the bytes that wait there already.  A
handler writes into the region of its slot only, so what waits stays as it is.
-/

namespace Udpcast.ReceiveData

open Receiver

/-- The bytes that the writer has written out and not consumed yet. -/
def WriterPhase.ahead : WriterPhase → ℕ
  | .written n => n
  | _ => 0

/-- The bytes that have passed through `fifo.data`, in order: those that the writer has written out
and those that wait there. -/
def Receiver.passed (r : Receiver) : List UInt8 :=
  r.output ++ Ring.window r.fifo.dataBufSize (r.fifo.data.getConsumerPosition + r.writer.ahead)
    (r.fifo.data.getWaiting - r.writer.ahead) r.fifo.buffer

/-! ### A handler writes into the region of its slot -/

/-- Outside the region of slot `i` the ring stays as it is. -/
structure WritesWithin (i : Fin 8) (r r' : Receiver) : Prop where
  base : (r'.slices i).base = (r.slices i).base
  blockSize : r'.blockSize = r.blockSize
  ringSize : r'.fifo.dataBufSize = r.fifo.dataBufSize
  outside : ∀ x ∉ Ring.cells r.fifo.dataBufSize (r.slices i).base (maxSliceSize * r.blockSize),
    r'.fifo.buffer x = r.fifo.buffer x

section WritesWithin

variable {i : Fin 8} {r r₁ r' : Receiver}

theorem WritesWithin.of_fifo (hbase : (r'.slices i).base = (r.slices i).base)
    (hsize : r'.blockSize = r.blockSize) (hfifo : r'.fifo = r.fifo) : WritesWithin i r r' :=
  ⟨hbase, hsize, by rw [hfifo], fun _ _ => by rw [hfifo]⟩

theorem WritesWithin.trans (h : WritesWithin i r r₁) (h' : WritesWithin i r₁ r') :
    WritesWithin i r r' where
  base := h'.base.trans h.base
  blockSize := h'.blockSize.trans h.blockSize
  ringSize := h'.ringSize.trans h.ringSize
  outside x hx := by
    have hsame := h'.outside x (by rwa [h.base, h.blockSize, h.ringSize])
    rw [hsame]
    exact h.outside x hx

theorem storeBlock_within {k : ℕ} {row : List UInt8}
    (hring : r.fifo.dataBufSize = r.blockSize * 4096) (hrow : row.length ≤ r.blockSize)
    (h : storeBlock r i k row = some r') : WritesWithin i r r' := by
  obtain ⟨hk, hslot, hfifo, hblock⟩ := storeBlock_some h
  refine ⟨by rw [hslot], hblock, by rw [hfifo], fun x hx => ?_⟩
  have hle : (k + 1) * r.blockSize ≤ 1024 * r.blockSize := Nat.mul_le_mul_right _ hk
  rw [Nat.add_mul, Nat.one_mul] at hle
  have hmax : maxSliceSize = 1024 := rfl
  rw [hfifo]
  refine Ring.write_apply_of_not_mem (by omega) (fun hin => hx ?_) _
  exact Ring.cells_subset (by omega) (by rw [hmax]; omega) hin

theorem storeInvariant_within (hring : r.fifo.dataBufSize = r.blockSize * 4096) :
    StoreInvariant i (WritesWithin i r) where
  store h₀ hq _ _ hrow hs := by
    refine hq.trans (storeBlock_within (by rw [hq.ringSize, hq.blockSize, hring]) ?_ hs)
    rw [hrow, h₀.blockSize, hq.blockSize]
  phase _ hq := ⟨hq.base, hq.blockSize, hq.ringSize, hq.outside⟩

theorem checkSliceComplete_within (hring : r.fifo.dataBufSize = r.blockSize * 4096)
    (h : checkSliceComplete r i = some r') : WritesWithin i r r' :=
  checkSliceComplete_invariant (storeInvariant_within hring) (WritesWithin.of_fifo rfl rfl rfl) h

theorem receiveBlock_within {msg : DataBlock} {payload : List UInt8}
    (hring : r.fifo.dataBufSize = r.blockSize * 4096) (h : receiveBlock r i msg payload = some r') :
    WritesWithin i r r' := by
  have hrefl : WritesWithin i r r := WritesWithin.of_fifo rfl rfl rfl
  simp only [receiveBlock] at h
  split at h
  · obtain rfl := Option.some.inj h
    exact hrefl
  split at h
  · obtain rfl := Option.some.inj h
    exact hrefl
  split at h
  · obtain rfl := Option.some.inj h
    exact hrefl
  obtain ⟨r₂, hstore, hcheck⟩ := Option.bind_eq_some_iff.mp h
  generalize hr₁ : (if msg.bytes ≠ 0 then r.learnBytes i msg.bytes else r) = r₁ at hstore
  have hlearn : WritesWithin i r r₁ := by
    rw [← hr₁]
    split
    · exact WritesWithin.of_fifo (by rw [learnBytes_slices_self]) rfl rfl
    · exact hrefl
  have hstored := hlearn.trans (storeBlock_within
    (by rw [hlearn.ringSize, hlearn.blockSize, hring]) (List.length_take_le ..) hstore)
  exact hstored.trans
    (checkSliceComplete_within (by rw [hstored.ringSize, hstored.blockSize, hring]) hcheck)

theorem receiveFec_within {msg : FecBlock} {payload : List UInt8}
    (hring : r.fifo.dataBufSize = r.blockSize * 4096) (h : receiveFec r i msg payload = some r') :
    WritesWithin i r r' := by
  have hrefl : WritesWithin i r r := WritesWithin.of_fifo rfl rfl rfl
  simp only [receiveFec] at h
  split at h
  · obtain rfl := Option.some.inj h
    exact hrefl
  generalize hr₁ : (if msg.bytes ≠ 0 ∧ (r.slices i).bytesKnown = false
    then r.learnBytes i msg.bytes else r) = r₁ at h
  have hlearn : WritesWithin i r r₁ := by
    rw [← hr₁]
    split
    · exact WritesWithin.of_fifo (by rw [learnBytes_slices_self]) rfl rfl
    · exact hrefl
  generalize hr₂ : r₁.modify i _ = r₂ at h
  have hpush : WritesWithin i r₁ r₂ := by
    rw [← hr₂]
    exact WritesWithin.of_fifo (by rw [modify_slices_self]) rfl rfl
  have hpushed := hlearn.trans hpush
  exact hpushed.trans
    (checkSliceComplete_within (by rw [hpushed.ringSize, hpushed.blockSize, hring]) h)

end WritesWithin

/-! ### The writer's stream -/

section Passed

variable {t : Transfer} {stripes : ℕ} {r r' : Receiver} {a : Action} {C D F : ℕ}

theorem Queues.ahead_le (h : Queues r C D F) : D + r.writer.ahead ≤ C := by
  have hle := h.le
  have hrel := h.released
  cases hw : r.writer with
  | waiting => exact hle.2.2
  | written n =>
    rw [hw] at hrel
    exact hrel.2
  | consumed n => exact hle.2.2
  | returned => exact hle.2.2

theorem Queues.passed_eq (h : Queues r C D F) : r.passed = r.output ++
    Ring.window r.fifo.dataBufSize (D + r.writer.ahead) (C - (D + r.writer.ahead)) r.fifo.buffer := by
  rw [passed, h.data.getConsumerPosition, h.data.getWaiting, h.dataSize, Ring.window_mod_add,
    Nat.sub_sub]

theorem passed_congr (hN : r'.fifo.dataBufSize = r.fifo.dataBufSize)
    (hdata : r'.fifo.data = r.fifo.data) (hw : r'.writer = r.writer) (ho : r'.output = r.output)
    (hbuf : r'.fifo.buffer = r.fifo.buffer) : r'.passed = r.passed := by
  rw [passed, passed, hN, hdata, hw, ho, hbuf]

theorem Queues.passed_within (h : Queues r' C D F) (hroom : C + maxSliceSize * r.blockSize ≤ F)
    (hN : r'.fifo.dataBufSize = r.fifo.dataBufSize) (hdata : r'.fifo.data = r.fifo.data)
    (hw : r'.writer = r.writer) (ho : r'.output = r.output)
    (hbuf : ∀ x ∉ Ring.cells r.fifo.dataBufSize C (maxSliceSize * r.blockSize),
      r'.fifo.buffer x = r.fifo.buffer x) : r'.passed = r.passed := by
  have hle := h.le
  have hahead := h.ahead_le
  rw [h.passed_eq, passed, ← hdata, h.data.getConsumerPosition, h.data.getWaiting, h.dataSize,
    ← hN, ← hw, Ring.window_mod_add, Nat.sub_sub, ho]
  refine congrArg _ (Ring.window_congr fun x hx => hbuf x fun hin => ?_)
  rw [← hN] at hin
  exact Set.disjoint_left.mp (Ring.disjoint_cells (by omega) (by omega)) hx hin

theorem Queues.passed_produce (h : Queues r C D F) {n : ℕ} {q : Produconsum}
    (hq : r.fifo.data.produce n = some q) (hroom : C + n ≤ D + r.fifo.dataBufSize)
    (hN : r'.fifo.dataBufSize = r.fifo.dataBufSize) (hdata : r'.fifo.data = q)
    (hw : r'.writer = r.writer) (ho : r'.output = r.output)
    (hbuf : r'.fifo.buffer = r.fifo.buffer) :
    r'.passed = r.passed ++ Ring.window r.fifo.dataBufSize C n r.fifo.buffer := by
  have hahead := h.ahead_le
  obtain ⟨p, hp, hc, -, hs⟩ := h.data.produce_eq (n := n) (by rw [h.dataSize]; omega)
  rw [hq] at hp
  obtain rfl := Option.some.inj hp
  have hsplit : C + n - (D + r.writer.ahead) = C - (D + r.writer.ahead) + n := by omega
  have hend : D + r.writer.ahead + (C - (D + r.writer.ahead)) = C := by omega
  rw [passed, hN, hdata, hw, ho, hbuf, hc.getConsumerPosition, hc.getWaiting, hs, h.dataSize,
    Ring.window_mod_add, Nat.sub_sub, hsplit, Ring.window_add, hend, h.passed_eq, List.append_assoc]

theorem Queues.passed_write (h : Queues r C D F) (hwait : r.writer = .waiting)
    (hw : writeBlock r = some r') : r'.passed = r.passed := by
  rcases h.writeBlock_eq hw with ⟨rfl, -, -⟩ | ⟨n, -, hn, rfl⟩
  · rw [passed, passed, hwait]
    rfl
  · have hq := h.write hwait hw
    rw [hq.passed_eq, h.passed_eq, hwait]
    show r.output ++ _ ++ Ring.window _ (D + n) (C - (D + n)) _
      = r.output ++ Ring.window _ (D + 0) (C - (D + 0)) _
    have hsplit : C - (D + 0) = n + (C - (D + n)) := by omega
    rw [hsplit, Ring.window_add, List.append_assoc, Nat.add_zero]

theorem Queues.passed_writeConsumed (h : Queues r C D F) {n : ℕ} (hw : r.writer = .written n)
    {q : Produconsum} (hq : r.fifo.data.consumed n = some q) :
    ({ r with fifo.data := q, writer := .consumed n } : Receiver).passed = r.passed := by
  rw [(h.writeConsumed hw hq).passed_eq, h.passed_eq, hw]
  rfl

/-- The slices that have been handed over, one after the other. -/
def Streams (t : Transfer) (r : Receiver) : Prop :=
  r.passed = ((delivered r.trace).map t.content).flatten

theorem fill_passed {r₁ : Receiver} {i : Fin 8} {d : Datagram} {s b : ℤ} (hregions : Regions t r')
    (hd : t.Describes d) (hslice : d.slice = some (s, b)) (hno : (r'.slices i).sliceNo = s)
    (hring : r₁.fifo.dataBufSize = r₁.blockSize * 4096) (hf : fill r₁ i d = some r')
    (hfill : Filled (asUsize b) i r₁ r')
    (hnot : d.isReqack = false → (r₁.slices i).state ≠ .receiving → r' = r₁) :
    r'.passed = r₁.passed := by
  obtain ⟨buffer, hfifo⟩ := hfill.fifo
  obtain ⟨_, _, _, _, hrest⟩ := hfill.rest
  have hw : r'.writer = r₁.writer := by rw [hrest]
  have ho : r'.output = r₁.output := by rw [hrest]
  have hwrites : d.isReqack = false → WritesWithin i r₁ r' → r'.passed = r₁.passed := by
    intro hreq hwithin
    by_cases hi : (r₁.slices i).state = .receiving
    · obtain ⟨C, D, F, hq, hslots⟩ := hregions.queues
      obtain ⟨hbase, hroom⟩ := hslots i (by rw [hfill.state, hi])
        (by rw [hno]; exact hd.size_pos hslice hreq)
      refine hq.passed_within (r := r₁) (by rwa [← hfill.blockSize]) (by rw [hfifo]) (by rw [hfifo])
        hw ho fun x hx => hwithin.outside x ?_
      rwa [← hwithin.base, hbase, hwithin.ringSize, Ring.cells_mod]
    · rw [hnot hreq hi]
  cases d with
  | data msg payload => exact hwrites rfl (receiveBlock_within hring hf)
  | fec msg payload => exact hwrites rfl (receiveFec_within hring hf)
  | reqack msg =>
    obtain ⟨⟨_, _, rfl⟩, -⟩ := answerReqack_frame hf
    rfl
  | skipped => cases hslice
  | unexpected => cases hslice

theorem Streams.step (h : Streams t r) (hr : Reassembles t stripes r)
    (hr' : Reassembles t stripes r') (hcarried : Carried t stripes a) (hs : StepTo r a r') :
    Streams t r' := by
  have hdelivered : a ≠ .complete → delivered r'.trace = delivered r.trace := fun ha => by
    rcases delivered_cases hr.sized hr.used hs with ⟨hsame, -⟩ | ⟨_, hc, -⟩
    · exact hsame
    · exact absurd hc ha
  obtain ⟨C, D, F, hq, hslots⟩ := hr.regions.queues
  have hkeep : a ≠ .complete → r'.passed = r.passed → Streams t r' := fun ha hsame => by
    rw [Streams, hdelivered ha, hsame]
    exact h
  cases hs with
  | seeded _ => exact hkeep (by simp) rfl
  | seedNoSlot _ _ => exact hkeep (by simp) rfl
  | @seed s b x rest i r₁ _ hopen =>
    obtain ⟨-, -, -, hfifo, hw, ho, -⟩ := hopen.frame
    refine hkeep (by simp) ?_
    show r₁.passed = r.passed
    exact passed_congr (by rw [hfifo]) (by rw [hfifo]) hw ho (by rw [hfifo])
  | expire _ _ _ => exact hkeep (by simp) rfl
  | skipped _ =>
    obtain ⟨_, harmed⟩ := armed_frame r _
    refine hkeep (by simp) ?_
    rw [harmed]
    rfl
  | ignored _ _ _ =>
    obtain ⟨_, harmed⟩ := armed_frame r _
    refine hkeep (by simp) ?_
    rw [harmed]
    rfl
  | answered _ _ _ =>
    obtain ⟨_, harmed⟩ := armed_frame r _
    refine hkeep (by simp) ?_
    rw [harmed]
    rfl
  | @handled top now d s b i r₁ r' hphase hd hopen hf hfill hnot _ _ =>
    obtain ⟨_, harmed⟩ := armed_frame r now
    obtain ⟨-, -, hb, hfifo, hw, ho, -⟩ := hopen.frame
    have hopened : r₁.passed = r.passed := by
      refine (passed_congr (by rw [hfifo]) (by rw [hfifo]) hw ho (by rw [hfifo])).trans ?_
      rw [harmed]
      rfl
    have hring : r₁.fifo.dataBufSize = r₁.blockSize * 4096 := by
      rw [hfifo, hb, armed_fifo, hq.size, harmed]
    refine hkeep (by simp) ((fill_passed hr'.regions hcarried.1.describes hd ?_ hring hf hfill hnot).trans
      hopened)
    rw [hfill.sliceNo, hopen.sliceNo]
  | @complete i r₁ hphase hfin =>
    -- nothing is handed over for the end marker
    have hmarker : ∀ q : Receiver, (r.slices i).bytes = 0 → q.passed = r.passed →
        q.trace = r.trace ++ [.completed (r.slices i).sliceNo (r.slices i).bytes,
          .ok (r.slices i).sliceNo] → Streams t q := fun q hzero hpassed htrace => by
      rw [Streams, hpassed, htrace, delivered_completed, if_neg (by omega), List.append_nil]
      exact h
    cases hfin with
    | already _ => exact h
    | @data q₁ q₂ hdone hno hpos hq₁ hq₂ =>
      have hstate : (r.slices i).state = .receiving := by
        cases hi : (r.slices i).state with
        | free => exact absurd hi (hr.used i hphase)
        | receiving => rfl
        | done => exact absurd hi hdone
      have hbytes := hr.sized.bytes_receiving hstate
      have hsize : 0 < t.size (r.slices i).sliceNo := by omega
      obtain ⟨hbase, hroom⟩ := hslots i hstate hsize
      have hlen := Transfer.length_content (t := t) hno
      have hle := hq.le
      have hfits := t.size_le (r.slices i).sliceNo
      rw [← hr.regions.blockSize] at hfits
      -- the region has the bytes of the slice
      have hwindow := (hr.keeps.holds i hstate hsize).window_eq (by
        have hfull := (hr.keeps.completing i hstate hsize).mp hphase
        rwa [Full, ← hlen, ← hr.regions.blockSize] at hfull)
      rw [hlen, hbase, Ring.window_mod] at hwindow
      have hpassed : ({ ({ finishSlot r i with fifo.freeMemQueue := q₁, fifo.data := q₂ }.emit
          (.ok (r.slices i).sliceNo)) with phase := .scanning } : Receiver).passed
            = r.passed ++ Ring.window r.fifo.dataBufSize C (r.slices i).bytes r.fifo.buffer :=
        hq.passed_produce hq₂ (by omega) rfl rfl rfl rfl rfl
      rw [Streams, hpassed, hbytes, hwindow, h]
      show _ = ((delivered (r.trace ++ [_] ++ [_])).map t.content).flatten
      rw [List.append_assoc]
      have hadd := delivered_completed r.trace (r.slices i).sliceNo (r.slices i).bytes
      rw [if_pos hpos] at hadd
      refine Eq.trans ?_ (congrArg (fun l => (l.map t.content).flatten) hadd.symm)
      simp
    | atEnd _ _ hzero _ => exact hmarker _ hzero rfl (List.append_assoc r.trace [_] [_])
    | incomplete _ _ hzero _ => exact hmarker _ hzero rfl (List.append_assoc r.trace [_] [_])
  | scan _ =>
    refine hkeep (by simp) ?_
    rw [scanEnd]
    split
    · rfl
    · split
      · rfl
      · rfl
  | write hwait hw =>
    exact hkeep (by simp) (hq.passed_write hwait hw)
  | writeConsumed hw hq' => exact hkeep (by simp) (hq.passed_writeConsumed hw hq')
  | writeProduced hw _ =>
    refine hkeep (by simp) ?_
    rw [passed, passed, hw]
    rfl

theorem streams_start {r₀ : Receiver} (h : Starts t r₀) : Streams t r₀ := by
  obtain ⟨exitWait, late, fifo, rfl, hfifo, -⟩ := h
  rw [Fifo.new_eq t.blockSize_pos] at hfifo
  obtain rfl := Option.some.inj hfifo
  rfl

end Passed

/-- In every run on packets of a transfer in which slots for data slices are claimed one at a time,
the bytes that have passed through `fifo.data` are those of the slices that have been handed over,
in the order in which they were. -/
theorem fifo_data_streams (t : Transfer) (stripes : ℕ) (hlt : stripes < 2 ^ 31) (r₀ r : Receiver)
    (hstart : Starts t r₀)
    (hrun : Run.Reach step (fun r a => Carried t stripes a ∧ ClaimsAlone t r a) r₀ r) :
    r.passed = ((delivered r.trace).map t.content).flatten :=
  (hrun.invariant (I := fun r => Reassembles t stripes r ∧ Streams t r)
    ⟨reassembles_start hstart stripes, streams_start hstart⟩ fun _ _ _ ⟨hq, hstreams⟩ ha hs =>
      have hq' := hq.step hlt ha.1 ha.2 (step_cases hs)
      ⟨hq', hstreams.step hq hq' ha.1 (step_cases hs)⟩).2

/-- Two of the ten slices. -/
theorem fifo_data_streams_tenSlices : ∃ r : Receiver, delivered r.trace = [0, 1] ∧
    r.passed = ((delivered r.trace).map tenSlices.content).flatten := by
  have hexec : (Run.exec step (fun r a => Plain tenSlices a ∧ ClaimsAlone tenSlices r a)
      tenSlicesStart (eachOnce 2)).map (fun r => decide (delivered r.trace = [0, 1])) = some true := by
    decide +kernel
  obtain ⟨r, hr, hp⟩ := Run.exists_reach_of_exec hexec
  exact ⟨r, of_decide_eq_true hp, fifo_data_streams tenSlices 1 (by decide) tenSlicesStart r
    tenSlicesStart_starts (hr.mono fun _ _ ha => ⟨ha.1.carried, ha.2⟩)⟩

end Udpcast.ReceiveData
