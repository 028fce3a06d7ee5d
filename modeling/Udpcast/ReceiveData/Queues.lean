import Udpcast.ReceiveData.Steps

/-!
# The two queues of the receiver

In terms of totals: `C` bytes have been completed, which were consumed from the free memory and
produced into `data`; the writer has taken `D` of them; `F` bytes of free memory have been produced.
-/

namespace Udpcast.ReceiveData

/-- The memory given back, in each state of the writer. -/
def Released (N C D F : ℕ) : WriterPhase → Prop
  | .waiting => F = N + D
  | .written n => F = N + D ∧ D + n ≤ C
  | .consumed n => F + n = N + D
  | .returned => F = N + D

structure Queues (r : Receiver) (C D F : ℕ) : Prop where
  blockSize_pos : 0 < r.blockSize
  size : r.fifo.dataBufSize = r.blockSize * 4096
  freeSize : r.fifo.freeMemQueue.size = r.fifo.dataBufSize
  dataSize : r.fifo.data.size = r.fifo.dataBufSize
  free : r.fifo.freeMemQueue.Counts F C
  data : r.fifo.data.Counts C D
  freeEnd : r.fifo.freeMemQueue.inner.atEnd = false
  released : Released r.fifo.dataBufSize C D F r.writer

namespace Queues

variable {r r' : Receiver} {C D F : ℕ}

theorem congr (h : Queues r C D F) (hb : r'.blockSize = r.blockSize)
    (hs : r'.fifo.dataBufSize = r.fifo.dataBufSize)
    (hf : r'.fifo.freeMemQueue = r.fifo.freeMemQueue) (hd : r'.fifo.data = r.fifo.data)
    (hw : r'.writer = r.writer) : Queues r' C D F where
  blockSize_pos := by rw [hb]; exact h.blockSize_pos
  size := by rw [hs, hb, h.size]
  freeSize := by rw [hf, hs, h.freeSize]
  dataSize := by rw [hd, hs, h.dataSize]
  free := by rw [hf]; exact h.free
  data := by rw [hd]; exact h.data
  freeEnd := by rw [hf, h.freeEnd]
  released := by rw [hs, hw]; exact h.released

theorem pos (h : Queues r C D F) : 0 < r.fifo.dataBufSize := by
  have := h.blockSize_pos
  rw [h.size]
  omega

theorem le (h : Queues r C D F) : F ≤ r.fifo.dataBufSize + D ∧ C ≤ F ∧ D ≤ C := by
  have hrel := h.released
  refine ⟨?_, h.free.le, h.data.le⟩
  cases hw : r.writer with
  | waiting => rw [hw] at hrel; exact hrel.le
  | written n => rw [hw] at hrel; exact hrel.1.le
  | consumed n => rw [hw] at hrel; have : F + n = r.fifo.dataBufSize + D := hrel; omega
  | returned => rw [hw] at hrel; exact hrel.le

theorem start {blockSize exitWait : ℕ} {late : List (ℤ × ℤ × ℤ)} {fifo : Fifo}
    (hb : 0 < blockSize) (hf : Fifo.new blockSize = some fifo) :
    Queues (Receiver.start blockSize exitWait late fifo) 0 0 fifo.dataBufSize := by
  rw [Fifo.new_eq hb] at hf
  obtain rfl := Option.some.inj hf
  obtain ⟨hfree, hdata⟩ := Fifo.fresh_counts hb
  exact ⟨hb, rfl, rfl, rfl, hfree, hdata, rfl, (Nat.add_zero _).symm⟩

theorem complete (h : Queues r C D F) {n : ℕ} (hn : C + n ≤ F) {q₁ q₂ : Produconsum}
    (h₁ : r.fifo.freeMemQueue.consumed n = some q₁) (h₂ : r.fifo.data.produce n = some q₂)
    (hfifo : ∃ buffer, r'.fifo = { r.fifo with buffer := buffer, freeMemQueue := q₁, data := q₂ })
    (hb : r'.blockSize = r.blockSize) (hw : r'.writer = r.writer) : Queues r' (C + n) D F := by
  obtain ⟨buffer, hfifo⟩ := hfifo
  have hle := h.le
  obtain ⟨p₁, hp₁, hc₁, he₁, hs₁⟩ := h.free.consumed_eq hn
  obtain ⟨p₂, hp₂, hc₂, he₂, hs₂⟩ := h.data.produce_eq (n := n) (by rw [h.dataSize]; omega)
  rw [h₁] at hp₁
  rw [h₂] at hp₂
  obtain rfl := Option.some.inj hp₁
  obtain rfl := Option.some.inj hp₂
  have hrel : Released r.fifo.dataBufSize (C + n) D F r.writer := by
    have hrel := h.released
    cases hw : r.writer with
    | waiting => rw [hw] at hrel; exact hrel
    | written m => rw [hw] at hrel; exact ⟨hrel.1, by have := hrel.2; omega⟩
    | consumed m => rw [hw] at hrel; exact hrel
    | returned => rw [hw] at hrel; exact hrel
  exact
    { blockSize_pos := by rw [hb]; exact h.blockSize_pos
      size := by rw [hfifo, hb]; exact h.size
      freeSize := by rw [hfifo]; exact hs₁.trans h.freeSize
      dataSize := by rw [hfifo]; exact hs₂.trans h.dataSize
      free := by rw [hfifo]; exact hc₁
      data := by rw [hfifo]; exact hc₂
      freeEnd := by rw [hfifo]; exact he₁.trans h.freeEnd
      released := by rw [hfifo, hw]; exact hrel }

theorem produceEnd (h : Queues r C D F)
    (hfifo : r'.fifo = { r.fifo with data := r.fifo.data.produceEnd })
    (hb : r'.blockSize = r.blockSize) (hw : r'.writer = r.writer) : Queues r' C D F where
  blockSize_pos := by rw [hb]; exact h.blockSize_pos
  size := by rw [hfifo, hb]; exact h.size
  freeSize := by rw [hfifo]; exact h.freeSize
  dataSize := by rw [hfifo]; exact h.dataSize
  free := by rw [hfifo]; exact h.free
  data := by rw [hfifo]; exact h.data.produceEnd
  freeEnd := by rw [hfifo]; exact h.freeEnd
  released := by rw [hfifo, hw]; exact h.released

theorem waited (h : Queues r C D F) {n : ℕ}
    (hw : (r.fifo.freeMemQueue.consume n).isSome) : C + n ≤ F := by
  obtain ⟨m, hm⟩ := Option.isSome_iff_exists.mp hw
  have hle := h.free.le
  rcases (h.free.consume hm).2 with hn | hend
  · omega
  · rw [h.freeEnd] at hend
    cases hend

/-! ### The writer -/

theorem writeBlock_eq (h : Queues r C D F)
    (hw : writeBlock r = some r') :
    (r' = { r with writer := .returned } ∧ r.fifo.data.inner.atEnd = true ∧ C = D) ∨
      ∃ n, 0 < n ∧ D + n ≤ C ∧ r' = { r with
        writer := .written n
        output := r.output ++ Ring.window r.fifo.dataBufSize D n r.fifo.buffer } := by
  have hle := h.le
  obtain ⟨m, hm, hw⟩ := Option.bind_eq_some_iff.mp hw
  obtain ⟨hmC, hwrap, hready, hzero⟩ := h.data.consumeContiguousMinAmount hm
  split at hw
  · rename_i h0
    have hCD := hzero h0
    refine Or.inl ⟨(Option.some.inj hw).symm, ?_, by omega⟩
    rcases hready with hio | hend
    · rw [hCD] at hio
      simp [ioBlockSize] at hio
    · exact hend
  · rename_i hne
    obtain ⟨buf, hbuf, hw⟩ := Option.bind_eq_some_iff.mp hw
    obtain rfl := Option.some.inj hw
    rw [h.data.getConsumerPosition, h.dataSize] at hbuf
    generalize hn : (if D % r.fifo.dataBufSize + m ≠ r.fifo.dataBufSize ∧
        m > (D % r.fifo.dataBufSize + m) % ioBlockSize ∧
        (D % r.fifo.dataBufSize + m) % ioBlockSize ≠ 0
      then m - (D % r.fifo.dataBufSize + m) % ioBlockSize else m) = n at hbuf
    have hpos : 0 < n := by
      rw [← hn]
      split
      · omega
      · omega
    have hnm : n ≤ m := by
      rw [← hn]
      split
      · omega
      · omega
    refine Or.inr ⟨n, hpos, by omega, ?_⟩
    rw [Fifo.readAt_eq h.pos (by omega)] at hbuf
    rw [Option.some.inj hbuf, ← hn, h.data.getConsumerPosition, h.dataSize]

theorem write (h : Queues r C D F) (hwait : r.writer = .waiting) (hw : writeBlock r = some r') :
    Queues r' C D F := by
  have hrel := h.released
  rw [hwait] at hrel
  rcases h.writeBlock_eq hw with ⟨rfl, -, -⟩ | ⟨n, -, hn, rfl⟩
  · exact ⟨h.blockSize_pos, h.size, h.freeSize, h.dataSize, h.free, h.data, h.freeEnd, hrel⟩
  · exact ⟨h.blockSize_pos, h.size, h.freeSize, h.dataSize, h.free, h.data, h.freeEnd, hrel, hn⟩

theorem writeConsumed (h : Queues r C D F) {n : ℕ} (hw : r.writer = .written n) {q : Produconsum}
    (hq : r.fifo.data.consumed n = some q) :
    Queues { r with fifo.data := q, writer := .consumed n } C (D + n) F := by
  have hrel := h.released
  rw [hw] at hrel
  obtain ⟨p, hp, hc, -, hs⟩ := h.data.consumed_eq hrel.2
  rw [hq] at hp
  obtain rfl := Option.some.inj hp
  refine ⟨h.blockSize_pos, h.size, h.freeSize, hs.trans h.dataSize, h.free, hc, h.freeEnd, ?_⟩
  have := hrel.1
  show F + n = r.fifo.dataBufSize + (D + n)
  omega

theorem writeProduced (h : Queues r C D F) {n : ℕ} (hw : r.writer = .consumed n) {q : Produconsum}
    (hq : r.fifo.freeMemQueue.produce n = some q) :
    Queues { r with fifo.freeMemQueue := q, writer := .waiting } C D (F + n) := by
  have hle := h.le
  have hrel : F + n = r.fifo.dataBufSize + D := by
    have := h.released
    rwa [hw] at this
  obtain ⟨p, hp, hc, he, hs⟩ := h.free.produce_eq (n := n) (by rw [h.freeSize]; omega)
  rw [hq] at hp
  obtain rfl := Option.some.inj hp
  exact ⟨h.blockSize_pos, h.size, hs.trans h.freeSize, h.dataSize, hc, h.data, he.trans h.freeEnd, hrel⟩

end Queues

end Udpcast.ReceiveData
