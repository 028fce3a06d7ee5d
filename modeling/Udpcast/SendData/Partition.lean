import Udpcast.SendData.Config

/-!
# The slices and the input

An observer of the main loop notes the bytes that the ring has for each slice when it is formed.
-/

namespace Udpcast.SendData

open Sender Produconsum

/-- The contents of the slices, in the order of their numbers: a new slice has the bytes behind the
consumer position of `data`. -/
def seeSlice (x : Sender) (_ : Action) (x' : Sender) (slices : List (List UInt8)) :
    List (List UInt8) :=
  slices ++ (x'.cuts.drop x.cuts.length).map fun bytes =>
    Ring.window x.fifo.dataBufSize x.fifo.data.getConsumerPosition bytes x.fifo.buffer

/-- The slices are the beginning of the input, and all of it when there is an empty one. -/
structure IsPartition (x : Sender) (slices : List (List UInt8)) : Prop where
  numbered : x.sliceNo = slices.length
  isPrefix : slices.flatten <+: x.input
  blocks : ∀ s ∈ slices, blocksIn x.config.blockSize s.length ≤ 1024 ∧
    (x.config.blockSize ∣ s.length ∨ s.length < x.config.blockSize)
  /-- The empty slice is the last one, and it alone comes behind a slice of less than a block. -/
  order : slices.Pairwise fun s r => s ≠ [] ∧ (s.length < x.config.blockSize → r = [])
  ended : [] ∈ slices → x.fifo.data.inner.atEnd = true ∧ slices.flatten = x.input

/-- The slice size is between 1 and 1024 at the start and cannot grow further. -/
def SlicesFit (c : NetConfig) : Prop :=
  ∀ size, c.initialSize = some size → 1 ≤ size ∧ size ≤ 1024 ∧
    (c.capped c.maxSliceSize ≤ 1024 ∨ c.hasFlag flagSn = true ∨ size ≤ 3)

/-! ### Steps that form no slice -/

/-- The step leaves the slices as they are. -/
structure Unformed (x x' : Sender) : Prop where
  cuts : x'.cuts = x.cuts
  sliceNo : x'.sliceNo = x.sliceNo
  atEnd : x'.atEnd = x.atEnd
  blockSize : x'.config.blockSize = x.config.blockSize
  isPrefix : x.input <+: x'.input
  dataEnd : x.fifo.data.inner.atEnd = true →
    x'.fifo.data.inner.atEnd = true ∧ x'.input = x.input

section Unformed

variable {x x' : Sender} {a : Action} {F R P D : ℕ}

theorem Unformed.quiet (hcuts : x'.cuts = x.cuts) (hno : x'.sliceNo = x.sliceNo)
    (hend : x'.atEnd = x.atEnd) (hc : x'.config.blockSize = x.config.blockSize)
    (hinput : x'.input = x.input) (hdata : x'.fifo.data = x.fifo.data) : Unformed x x' where
  cuts := hcuts
  sliceNo := hno
  atEnd := hend
  blockSize := hc
  isPrefix := by rw [hinput]
  dataEnd h := ⟨by rw [hdata]; exact h, hinput⟩

theorem StepTo.formed_or (hs : StepTo x a x') (hc : Control x) (hq : Queues x F R P D) :
    (∃ pos bytes m data, x' = formed x pos bytes data ∧ x.atEnd = false ∧
      x.fifo.data.consume (10 * x.config.blockSize) = some m ∧ CutFrom x.config m bytes ∧
      x.fifo.data.consumed bytes = some data) ∨ Unformed x x' := by
  cases hs with
  | form _ _ hend _ hm hcut hdata => exact Or.inl ⟨_, _, _, _, rfl, hend, hm, hcut, hdata⟩
  | arrive _ _ => exact Or.inr (Unformed.quiet rfl rfl rfl rfl rfl rfl)
  | enqueue _ => exact Or.inr (Unformed.quiet rfl rfl rfl rfl rfl rfl)
  | @dispatch m rest _ _ =>
    obtain ⟨-, _, _, _, heq⟩ := handleMessage_frame { x with msgs := rest } m
    rw [heq]
    exact Or.inr (Unformed.quiet rfl rfl rfl rfl rfl rfl)
  | goto _ => exact Or.inr (Unformed.quiet rfl rfl rfl rfl rfl rfl)
  | retain _ => exact Or.inr (Unformed.quiet rfl rfl rfl rfl rfl rfl)
  | acked _ _ hconfig _ =>
    exact Or.inr (Unformed.quiet rfl rfl rfl (growSliceSize_blockSize hconfig) rfl rfl)
  | rexmit _ _ => exact Or.inr (Unformed.quiet rfl rfl rfl rfl rfl rfl)
  | reqack _ _ =>
    exact Or.inr (Unformed.quiet rfl rfl rfl (reduceSliceSize_blockSize _ _) rfl rfl)
  | asyncRound hasync => exact absurd hasync hc.not_asyncRound
  | finish _ => exact Or.inr (Unformed.quiet rfl rfl rfl rfl rfl rfl)
  | encode _ _ => exact Or.inr (Unformed.quiet rfl rfl rfl rfl rfl rfl)
  | transmit _ _ _ =>
    exact Or.inr (Unformed.quiet rfl rfl rfl (reduceSliceSize_blockSize _ _) rfl rfl)
  | transmitAsync _ _ hconfig _ _ =>
    exact Or.inr (Unformed.quiet rfl rfl rfl (growSliceSize_blockSize hconfig) rfl rfl)
  | timeout _ _ =>
    exact Or.inr (Unformed.quiet rfl rfl rfl (reduceSliceSize_blockSize _ _) rfl rfl)
  | allDropped _ _ => exact Or.inr (Unformed.quiet rfl rfl rfl rfl rfl rfl)
  | readerWait _ hw =>
    rcases readerWait_frame hw with rfl | ⟨_, _, rfl⟩
    · exact Or.inr (Unformed.quiet rfl rfl rfl rfl rfl rfl)
    · exact Or.inr (Unformed.quiet rfl rfl rfl rfl rfl rfl)
  | readEnd _ => exact Or.inr ⟨rfl, rfl, rfl, rfl, List.prefix_rfl, fun _ => ⟨rfl, rfl⟩⟩
  | read hr _ =>
    refine Or.inr ⟨rfl, rfl, rfl, rfl, List.prefix_append _ _, fun hend => ?_⟩
    rw [hq.dataEnd hend] at hr
    cases hr
  | readerConsumed _ _ => exact Or.inr (Unformed.quiet rfl rfl rfl rfl rfl rfl)
  | readerWrite _ hw =>
    obtain rfl := Fifo.writeAt_frame hw
    exact Or.inr (Unformed.quiet rfl rfl rfl rfl rfl rfl)
  | readerProduced _ hq' =>
    exact Or.inr ⟨rfl, rfl, rfl, rfl, List.prefix_rfl, fun hend =>
      ⟨(produce_atEnd hq').trans hend, rfl⟩⟩

end Unformed

/-! ### The invariant -/

structure Pieces (x : Sender) (slices : List (List UInt8)) : Prop where
  lengths : slices.map List.length = x.cuts
  flatten : slices.flatten = x.input.take x.cuts.sum
  blocks : ∀ s ∈ slices, x.config.blockSize ∣ s.length ∨ s.length < x.config.blockSize
  order : slices.Pairwise fun s r => s ≠ [] ∧ (s.length < x.config.blockSize → r = [])
  notEnded : x.atEnd = false → [] ∉ slices
  short : ∀ s ∈ slices, s.length < x.config.blockSize →
    x.fifo.data.inner.atEnd = true ∧ x.cuts.sum = x.input.length

section Pieces

variable {x x' : Sender} {a : Action} {slices : List (List UInt8)} {F R P D : ℕ}

theorem Pieces.unformed (h : Pieces x slices) (hle : x.cuts.sum ≤ x.input.length)
    (hu : Unformed x x') : Pieces x' slices where
  lengths := by rw [h.lengths, hu.cuts]
  flatten := by
    obtain ⟨buf, hbuf⟩ := hu.isPrefix
    rw [h.flatten, hu.cuts, ← hbuf, List.take_append_of_le_length hle]
  blocks := by rw [hu.blockSize]; exact h.blocks
  order := by rw [hu.blockSize]; exact h.order
  notEnded := by rw [hu.atEnd]; exact h.notEnded
  short s hs hlt := by
    rw [hu.blockSize] at hlt
    obtain ⟨hend, hsum⟩ := h.short s hs hlt
    obtain ⟨hend', hinput⟩ := hu.dataEnd hend
    exact ⟨hend', by rw [hu.cuts, hinput, hsum]⟩

theorem Pieces.form (h : Pieces x slices) (hq : Queues x F R P D) (hw : Waiting x)
    (hsize : 0 < x.config.sliceSize) {pos : Fin 8} {bytes m : ℕ} {data : Produconsum}
    (hend : x.atEnd = false) (hm : x.fifo.data.consume (10 * x.config.blockSize) = some m)
    (hcut : CutFrom x.config m bytes) (hdata : x.fifo.data.consumed bytes = some data) :
    Pieces (formed x pos bytes data) (slices ++
      [Ring.window x.fifo.dataBufSize x.fifo.data.getConsumerPosition bytes x.fifo.buffer]) := by
  have hle := hq.le
  have hsum : x.cuts.sum = D := hq.cut
  obtain ⟨rfl, hready⟩ := hq.data.consume hm
  have hbytes := hcut.le
  have hwindow : Ring.window x.fifo.dataBufSize x.fifo.data.getConsumerPosition bytes x.fifo.buffer
      = (x.input.drop x.cuts.sum).take bytes := by
    rw [hq.data.getConsumerPosition, hq.dataSize, Ring.window_mod, ← hsum]
    exact hw.cut hq (by omega)
  -- a short slice takes all that is left, and there is no more to come
  have hshort : bytes < x.config.blockSize →
      data.inner.atEnd = true ∧ (x.cuts ++ [bytes]).sum = x.input.length := by
    intro hlt
    have hall := hcut.rest hlt hsize
    have hdataEnd : x.fifo.data.inner.atEnd = true := by
      rcases hready with hready | hready
      · omega
      · exact hready
    have hahead := hq.ahead
    rw [hq.dataEnd hdataEnd] at hahead
    have hinput : x.input.length = P := hahead.1
    refine ⟨(consumed_atEnd hdata).trans hdataEnd, ?_⟩
    rw [List.sum_append, List.sum_singleton]
    omega
  -- behind a short slice nothing is left
  have hrest : ∀ s ∈ slices, s.length < x.config.blockSize → bytes = 0 := by
    intro s hs hlt
    have := (h.short s hs hlt).2
    omega
  have hlen : (Ring.window x.fifo.dataBufSize x.fifo.data.getConsumerPosition bytes
    x.fifo.buffer).length = bytes := Ring.length_window ..
  exact
    { lengths := by rw [List.map_append, h.lengths, List.map_singleton, hlen]; rfl
      flatten := by
        show _ = x.input.take (x.cuts ++ [bytes]).sum
        rw [List.flatten_append, h.flatten, List.flatten_singleton, hwindow, List.sum_append,
          List.sum_singleton, List.take_add]
      blocks := fun s hs => by
        rcases List.mem_append.mp hs with hs | hs
        · exact h.blocks s hs
        · rw [List.mem_singleton.mp hs, hlen]
          exact hcut.blocks
      order := by
        refine List.pairwise_append.mpr ⟨h.order, List.pairwise_singleton _ _, fun s hs r hr => ?_⟩
        refine ⟨fun hnil => h.notEnded hend (hnil ▸ hs), fun hlt => ?_⟩
        rw [List.mem_singleton.mp hr, hrest s hs hlt]
        rfl
      notEnded := fun hopen hnil => by
        have hne : bytes ≠ 0 := of_decide_eq_false hopen
        rcases List.mem_append.mp hnil with hnil | hnil
        · exact h.notEnded hend hnil
        · have hzero := congrArg List.length (List.mem_singleton.mp hnil)
          rw [hlen] at hzero
          exact hne hzero.symm
      short := fun s hs hlt => by
        rcases List.mem_append.mp hs with hs | hs
        · refine hshort ?_
          rw [hrest s hs hlt]
          exact x.config.blockSize_pos
        · rw [List.mem_singleton.mp hs, hlen] at hlt
          exact hshort hlt }

theorem Pieces.step (h : Pieces x slices) (hsound : Sound x) (hsize : 0 < x.config.sliceSize)
    (hs : StepTo x a x') : Pieces x' (seeSlice x a x' slices) := by
  obtain ⟨F, R, P, D, hq⟩ := hsound.queues
  rcases hs.formed_or hsound.control hq with ⟨pos, bytes, m, data, rfl, hend, hm, hcut, hdata⟩ | hu
  · have hnew : (formed x pos bytes data).cuts.drop x.cuts.length = [bytes] :=
      List.drop_left' rfl
    rw [seeSlice, hnew]
    exact h.form hq hsound.waiting hsize hend hm hcut hdata
  · have hle := hq.le
    have hsum : x.cuts.sum = D := hq.cut
    rw [seeSlice, hu.cuts, List.drop_length, List.map_nil, List.append_nil]
    exact h.unformed (by omega) hu

theorem Pieces.isPartition (h : Pieces x slices) (hcut : Cut x)
    (hsizes : Sizes 1 1024 x) : IsPartition x slices where
  numbered := by rw [hcut.next, ← h.lengths, List.length_map]
  isPrefix := by rw [h.flatten]; exact List.take_prefix _ _
  blocks s hs := by
    refine ⟨?_, h.blocks s hs⟩
    have hmem : s.length ∈ x.cuts := h.lengths ▸ List.mem_map_of_mem hs
    have hle := hsizes.cuts _ hmem
    by_contra hgt
    have hlt := (lt_blocksIn x.config.blockSize_pos).mp (Nat.lt_of_not_le hgt)
    rw [Nat.mul_comm] at hlt
    omega
  order := h.order
  ended hnil := by
    obtain ⟨hend, hsum⟩ := h.short [] hnil x.config.blockSize_pos
    exact ⟨hend, by rw [h.flatten, hsum, List.take_length]⟩

end Pieces

theorem pieces_start {config : NetConfig} {db : ParticipantsDb} {x : Sender}
    (h : Sender.start config db = some x) : Pieces x [] where
  lengths := (start_cuts h).symm
  flatten := by rw [start_cuts h]; rfl
  blocks := nofun
  order := List.Pairwise.nil
  notEnded _ := List.not_mem_nil
  short := nofun

theorem slicesFit_sizes {config : NetConfig} {db : ParticipantsDb} {x : Sender}
    (hfit : SlicesFit config) (h : Sender.start config db = some x) : Sizes 1 1024 x := by
  obtain ⟨hlo, hhi, hgrow⟩ := hfit _ (start_initialSize h)
  obtain ⟨hmax, size, hsize, -⟩ := start_sizes h
  refine ⟨⟨?_, ?_, Or.inr (Or.inr (by decide)), hlo, hhi⟩, fun n hn => ?_⟩
  · have hle : x.config.sliceSize ≤ x.config.maxSliceSize := hsize ▸ Nat.min_le_right _ _
    exact hlo.trans hle
  · rw [hmax, hasFlag_congr (start_flags h)]
    rcases hgrow with hle | hsn | hsmall
    · exact Or.inl hle
    · exact Or.inr (Or.inl hsn)
    · exact Or.inr (Or.inr fun _ => hsmall)
  · rw [start_cuts h] at hn
    cases hn

end Udpcast.SendData
