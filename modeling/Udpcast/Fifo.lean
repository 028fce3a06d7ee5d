import Udpcast.Lib.Ring
import Udpcast.Produconsum

/-!
# The shared ring buffer (fifo.rs)

The buffer is guarded by two queues: `freeMemQueue` counts the bytes that may be filled, `data` the
bytes that are filled and not taken out yet.
-/

namespace Udpcast

/-- `Fifo` (fifo.rs:16-21). -/
structure Fifo where
  buffer : ℕ → UInt8
  dataBufSize : ℕ
  freeMemQueue : Produconsum
  data : Produconsum

namespace Fifo

/-- `Fifo::new` (fifo.rs:24-36). -/
def new (blockSize : ℕ) : Option Fifo := do
  let dataBufSize := blockSize * 4096
  let freeMemQueue ← (Produconsum.new dataBufSize).produce dataBufSize
  some ⟨fun _ => 0, dataBufSize, freeMemQueue, Produconsum.new dataBufSize⟩

/-- `write_at` (fifo.rs:40-47). -/
def writeAt (f : Fifo) (offset : ℕ) (row : List UInt8) : Option Fifo :=
  if offset ≤ f.dataBufSize ∧ row.length - (f.dataBufSize - offset) ≤ f.dataBufSize then
    some { f with buffer := Ring.write f.dataBufSize offset row f.buffer }
  else none

/-- `read_at` (fifo.rs:51-59). -/
def readAt (f : Fifo) (offset len : ℕ) : Option (List UInt8) :=
  if offset ≤ f.dataBufSize ∧ len - (f.dataBufSize - offset) ≤ f.dataBufSize then
    some (Ring.read f.dataBufSize offset len f.buffer)
  else none

/-- The ring at the start: all of it is free. -/
def fresh (blockSize : ℕ) : Fifo where
  buffer := fun _ => 0
  dataBufSize := blockSize * 4096
  freeMemQueue := ⟨blockSize * 4096, ⟨blockSize * 4096, 0, false⟩⟩
  data := Produconsum.new (blockSize * 4096)

theorem new_eq {blockSize : ℕ} (h : 0 < blockSize) : new blockSize = some (fresh blockSize) := by
  have hproduce : (Produconsum.new (blockSize * 4096)).produce (blockSize * 4096)
      = some ⟨blockSize * 4096, ⟨blockSize * 4096, 0, false⟩⟩ := by
    simp only [Produconsum.produce, Produconsum.new, Nat.zero_add]
    rw [if_neg (by omega), if_neg (show ¬ blockSize * 4096 ≥ 2 * (blockSize * 4096) by omega),
      if_neg (by omega), if_neg (by omega)]
  simp only [new, hproduce]
  rfl

theorem fresh_counts {blockSize : ℕ} (h : 0 < blockSize) :
    (fresh blockSize).freeMemQueue.Counts (blockSize * 4096) 0
      ∧ (fresh blockSize).data.Counts 0 0 := by
  have hpos : 0 < blockSize * 4096 := by omega
  refine ⟨⟨Nat.zero_le _, ?_, hpos, ?_, ?_⟩, Produconsum.counts_new hpos⟩
  · show blockSize * 4096 ≤ 0 + blockSize * 4096
    omega
  · show blockSize * 4096 = blockSize * 4096 % (2 * (blockSize * 4096))
    rw [Nat.mod_eq_of_lt (by omega)]
  · show 0 = 0 % (2 * (blockSize * 4096))
    rw [Nat.zero_mod]

variable {f : Fifo}

theorem writeAt_eq {p : ℕ} (row : List UInt8) (hp : p ≤ f.dataBufSize)
    (hr : row.length ≤ f.dataBufSize) :
    f.writeAt p row = some { f with buffer := Ring.write f.dataBufSize p row f.buffer } :=
  if_pos ⟨hp, by omega⟩

theorem writeAt_frame {offset : ℕ} {row : List UInt8} {f' : Fifo}
    (h : f.writeAt offset row = some f') :
    f' = { f with buffer := Ring.write f.dataBufSize offset row f.buffer } := by
  rw [writeAt] at h
  split at h
  · exact (Option.some.inj h).symm
  · cases h

theorem readAt_eq {p len : ℕ} (hpos : 0 < f.dataBufSize) (hlen : len ≤ f.dataBufSize) :
    f.readAt (p % f.dataBufSize) len = some (Ring.window f.dataBufSize p len f.buffer) := by
  rw [readAt, if_pos ⟨(Nat.mod_lt _ hpos).le, by omega⟩, Ring.read_eq_window hpos hlen]

theorem length_readAt {offset len : ℕ} {buf : List UInt8} (h : f.readAt offset len = some buf) :
    buf.length = len := by
  rw [readAt] at h
  split at h
  · obtain rfl := Option.some.inj h
    rw [Ring.read, List.length_append, List.length_map, List.length_range, List.length_map,
      List.length_range]
    omega
  · cases h

end Fifo

end Udpcast
