import Udpcast.SendData.Parity
import Udpcast.SendData.Partition

/-!
# One slice in flight

In half-duplex mode a slice is cut when the one before it has been freed.  The reader then stays
within one turn of the ring, and every packet carries what its slice has in the input.
-/

namespace Udpcast.SendData

open Sender

/-- The slice in flight is the one that was cut last. -/
structure Alone (x : Sender) : Prop where
  one : x.config.maxInFlight = 1
  last : ∀ i, (x.slices i).inFlight → (x.slices i).sliceNo + 1 = x.cuts.length

section Alone

variable {x x' : Sender} {a : Action} {F R P D : ℕ}

theorem Resized.flags {c' : NetConfig} (h : Resized x c') : c'.flags = x.config.flags := by
  cases h with
  | same heq => rw [heq]
  | grown hg => exact growSliceSize_flags hg
  | reduced _ _ heq =>
    rw [heq]
    exact reduceSliceSize_flags _ _

theorem maxInFlight_congr {c c' : NetConfig} (h : c'.flags = c.flags) :
    c'.maxInFlight = c.maxInFlight := by
  unfold NetConfig.maxInFlight
  rw [hasFlag_congr h, hasFlag_congr h]

/-- Where no slice is pending and none is at hand, none is in flight. -/
theorem Control.none_inFlight (h : Control x) (hphase : x.phase = .forming) (hnil : x.pending = [])
    (i : Fin 8) : ¬(x.slices i).inFlight := by
  rintro (hnew | hsent)
  · rcases h.new i hnew with hp | hp
    · rw [hphase] at hp
      cases hp
    · rw [hphase] at hp
      cases hp
  · have hmem := h.xmitted i hsent
    rw [hnil] at hmem
    cases hmem

theorem StepTo.room (hs : StepTo x a x') (hc : Control x) (hcuts : x'.cuts ≠ x.cuts) :
    x.phase = .forming ∧ x.pending.length < x.config.maxInFlight := by
  cases hs with
  | form hphase hroom _ _ _ _ _ => exact ⟨hphase, hroom⟩
  | @dispatch m rest _ _ =>
    obtain ⟨-, _, _, _, heq⟩ := handleMessage_frame { x with msgs := rest } m
    rw [heq] at hcuts
    exact absurd rfl hcuts
  | readerWait _ hw =>
    rcases readerWait_frame hw with rfl | ⟨_, _, rfl⟩
    · exact absurd rfl hcuts
    · exact absurd rfl hcuts
  | asyncRound hasync => exact absurd hasync hc.not_asyncRound
  | arrive _ _ => exact absurd rfl hcuts
  | enqueue _ => exact absurd rfl hcuts
  | goto _ => exact absurd rfl hcuts
  | retain _ => exact absurd rfl hcuts
  | acked _ _ _ _ => exact absurd rfl hcuts
  | rexmit _ _ => exact absurd rfl hcuts
  | reqack _ _ => exact absurd rfl hcuts
  | finish _ => exact absurd rfl hcuts
  | encode _ _ => exact absurd rfl hcuts
  | transmit _ _ _ => exact absurd rfl hcuts
  | transmitAsync _ _ _ _ _ => exact absurd rfl hcuts
  | timeout _ _ => exact absurd rfl hcuts
  | allDropped _ _ => exact absurd rfl hcuts
  | readEnd _ => exact absurd rfl hcuts
  | read _ _ => exact absurd rfl hcuts
  | readerConsumed _ _ => exact absurd rfl hcuts
  | readerWrite _ _ => exact absurd rfl hcuts
  | readerProduced _ _ => exact absurd rfl hcuts

theorem Alone.step (h : Alone x) (hc : Control x) (hcut : Cut x) (hs : StepTo x a x') :
    Alone x' := by
  refine ⟨?_, fun i hi => ?_⟩
  · rw [maxInFlight_congr (hs.resized hc).flags]
    exact h.one
  · cases hs.moves hc with
    | kept _ hkeep hcuts _ _ _ _ _ _ _ _ =>
      obtain ⟨hold, hno, -, -⟩ := hkeep i hi
      rw [hcuts, hno]
      exact h.last i hold
    | @formed pos bytes m amount data _ _ _ heq =>
      have hcuts : x'.cuts = x.cuts ++ [bytes] := by
        rw [heq]
        rfl
      obtain ⟨hphase, hroom⟩ := hs.room hc (by
        rw [hcuts]
        simp)
      rw [h.one, Nat.lt_one_iff, List.length_eq_zero_iff] at hroom
      have hpos : i = pos := by
        by_contra hne
        rw [heq, formed_slices_of_ne _ _ _ hne] at hi
        exact hc.none_inFlight hphase hroom i hi
      rw [hcuts, heq, hpos, formed_slices_self]
      show x.sliceNo + 1 = _
      rw [hcut.next, List.length_append]
      rfl
    | wrote _ _ heq =>
      rw [heq] at hi ⊢
      exact h.last i hi

/-- What the reader has read ends at most one turn of the ring behind the beginning of the slice in
flight, whose memory has not come back. -/
theorem Alone.input_le (h : Alone x) (hcut : Cut x) (hq : Queues x F R P D) {pos : ℕ}
    {buf : List UInt8} (hr : x.reader = .consumed pos buf) {i : Fin 8} (hi : (x.slices i).inFlight) :
    x.input.length ≤ x.sliceStart (x.slices i).sliceNo + x.fifo.dataBufSize := by
  have hahead := hq.ahead
  rw [hr] at hahead
  have hinput : x.input.length = R := hahead.1
  obtain ⟨h0, hlt, hbytes, -⟩ := hcut.slot i hi
  have hlast := h.last i hi
  have hend : x.sliceStart (x.slices i).sliceNo + (x.slices i).bytes = D := by
    have hno : (x.slices i).sliceNo.toNat + 1 = x.cuts.length := by omega
    have hall : (x.cuts.take ((x.slices i).sliceNo.toNat + 1)).sum = D := by
      rw [hno, List.take_length]
      exact hq.cut
    rw [List.sum_take_succ _ _ (by omega)] at hall
    rw [hbytes, List.getD_eq_getElem _ _ (by omega)]
    exact hall
  have hle := hq.le
  have hret := hq.returned
  have hone : (if (x.slices i).inFlight then (x.slices i).bytes else 0) ≤ inFlightBytes x :=
    Finset.single_le_sum (f := fun i => if (x.slices i).inFlight then (x.slices i).bytes else 0)
      (fun _ _ => Nat.zero_le _) (Finset.mem_univ i)
  rw [if_pos hi] at hone
  omega

theorem Alone.writesFree (h : Alone x) (hcut : Cut x) (hq : Queues x F R P D)
    (hs : SendData.step x a = some x') : WritesFree x a := by
  cases a with
  | readerWrite =>
    unfold SendData.step at hs
    dsimp only at hs
    split at hs
    · rename_i hr
      exact fun i hi => h.input_le hcut hq hr hi
    · cases hs
  | arrive _ => trivial
  | enqueue => trivial
  | dispatch => trivial
  | advance => trivial
  | wake => trivial
  | timeout => trivial
  | readerWait => trivial
  | read _ => trivial
  | readerConsumed => trivial
  | readerProduced => trivial

end Alone

theorem alone_start {config : NetConfig} {db : ParticipantsDb} {x : Sender}
    (hone : config.maxInFlight = 1) (h : Sender.start config db = some x) : Alone x := by
  refine ⟨?_, ?_⟩
  · rw [maxInFlight_congr (start_flags h)]
    exact hone
  · simp only [Sender.start, Option.bind_eq_bind, Option.bind_eq_some_iff] at h
    obtain ⟨fifo, -, nrFec, -, c₁, -, c₂, -, h⟩ := h
    obtain rfl := Option.some.inj h
    intro i hi
    rcases hi with hi | hi
    · cases hi
    · cases hi

/-! ### The transfer -/

theorem filter_or_concat {l : List (List UInt8)} (h : l.Pairwise fun s _ => s ≠ []) :
    l = l.filter (· ≠ []) ∨ l = l.filter (· ≠ []) ++ [[]] := by
  induction l with
  | nil => exact Or.inl rfl
  | cons s l ih =>
    obtain ⟨hs, hl⟩ := List.pairwise_cons.mp h
    by_cases hnil : s = []
    · cases l with
      | nil =>
        right
        rw [hnil]
        rfl
      | cons r l => exact absurd hnil (hs r List.mem_cons_self)
    · rw [List.filter_cons_of_pos (by simpa using hnil), List.cons_append]
      rcases ih hl with ih | ih
      · exact Or.inl (congrArg (s :: ·) ih)
      · exact Or.inr (congrArg (s :: ·) ih)

theorem take_drop_flatten (l : List (List UInt8)) (n : ℕ) :
    (l.flatten.drop ((l.map List.length).take n).sum).take ((l.map List.length).getD n 0)
      = l.getD n [] := by
  induction l generalizing n with
  | nil => simp
  | cons s l ih =>
    cases n with
    | zero => simp
    | succ n =>
      rw [List.flatten_cons, List.map_cons, List.take_succ_cons, List.sum_cons, List.getD_cons_succ,
        List.getD_cons_succ, List.drop_length_add_append]
      exact ih n

/-- The slices of the transfer are those that have been cut, without the empty one. -/
structure Sends (t : Transfer) (x : Sender) : Prop where
  blockSize : t.blockSize = x.config.blockSize
  content : ∀ s, t.content s = x.sliceInput s
  size : ∀ s, 0 ≤ s → t.size s = x.cuts.getD s.toNat 0
  cuts : x.cuts.length ≤ t.endNo + 1
  whole : t.Whole
  flatten : t.slices.flatten = x.input.take x.cuts.sum
  /-- The empty slice is cut at the end of the input. -/
  ended : t.endNo < x.cuts.length → x.fifo.data.inner.atEnd = true ∧ t.slices.flatten = x.input

section Sends

variable {x x' : Sender} {a : Action} {slices : List (List UInt8)} {F R P D : ℕ}

theorem Pieces.getD (h : Pieces x slices) (s : ℤ) : slices.getD s.toNat [] = x.sliceInput s := by
  have hsum := sum_take_add_getD_le x.cuts s.toNat
  have hpart := take_drop_flatten slices s.toNat
  rw [h.lengths, h.flatten] at hpart
  rw [← hpart, Sender.sliceInput, Sender.sliceStart, List.drop_take, List.take_take,
    Nat.min_eq_left (by omega)]

theorem Pieces.sends (h : Pieces x slices) (hsizes : Sizes 1 1024 x)
    (hle : x.cuts.sum ≤ x.input.length) (hlt : maxSliceSize * x.config.blockSize < 2 ^ 31) :
    ∃ t, Sends t x := by
  have hcases := filter_or_concat (h.order.imp fun hp => hp.1)
  have hmem : ∀ s ∈ slices.filter (· ≠ []), s ∈ slices ∧ s ≠ [] := by
    intro s hs
    obtain ⟨hin, hne⟩ := List.mem_filter.mp hs
    exact ⟨hin, by simpa using hne⟩
  have hslice : ∀ s ∈ slices, s.length ≤ maxSliceSize * x.config.blockSize := by
    intro s hs
    have hcut : s.length ∈ x.cuts := h.lengths ▸ List.mem_map_of_mem hs
    have hle := hsizes.cuts _ hcut
    rwa [Nat.mul_comm] at hle
  generalize hdata : slices.filter (· ≠ []) = data at hcases hmem
  have hget : ∀ n, data.getD n [] = slices.getD n [] := by
    intro n
    rcases hcases with heq | heq
    · rw [heq]
    · rw [heq]
      rcases Nat.lt_or_ge n data.length with hn | hn
      · rw [List.getD_append _ _ _ _ hn]
      · rw [List.getD_append_right _ _ _ _ hn, List.getD_eq_default _ _ hn]
        cases n - data.length with
        | zero => rfl
        | succ k => rfl
  have hflat : data.flatten = slices.flatten := by
    rcases hcases with heq | heq
    · rw [heq]
    · rw [heq, List.flatten_append, List.flatten_singleton, List.append_nil]
  let t : Transfer :=
    { blockSize := x.config.blockSize
      slices := data
      blockSize_pos := x.config.blockSize_pos
      blockSize_lt := hlt
      slice_pos := fun s hs => List.length_pos_iff.mpr (hmem s hs).2
      slice_le := fun s hs => hslice s (hmem s hs).1 }
  have hcontent : ∀ s, t.content s = x.sliceInput s := fun s => (hget s.toNat).trans (h.getD s)
  refine ⟨t, rfl, hcontent, fun s hs => ?_, ?_, fun s hs => h.blocks s (hmem s hs).1, ?_,
    fun hend => ?_⟩
  · rw [← Transfer.length_content hs, hcontent s, length_sliceInput hle]
  · rw [← h.lengths, List.length_map]
    show slices.length ≤ data.length + 1
    rcases hcases with heq | heq
    · rw [← heq]
      omega
    · rw [heq, List.length_append]
      exact le_rfl
  · exact hflat.trans h.flatten
  · have hnil : [] ∈ slices := by
      rcases hcases with heq | heq
      · rw [← h.lengths, List.length_map] at hend
        change data.length < slices.length at hend
        rw [← heq] at hend
        omega
      · rw [heq]
        exact List.mem_append_right _ (List.mem_singleton_self _)
    obtain ⟨hdataEnd, hsum⟩ := h.short [] hnil x.config.blockSize_pos
    refine ⟨hdataEnd, ?_⟩
    show data.flatten = x.input
    rw [hflat, h.flatten, hsum, List.take_length]

end Sends

/-! ### The parity blocks of the slice in flight -/

section HasEncoded

variable {x x' : Sender} {a : Action} {F R P D : ℕ}

/-- A step computes the parity blocks of the slice at hand, or leaves the parity buffers alone. -/
theorem StepTo.encodes_or (hs : StepTo x a x') (hc : Control x) :
    (∃ i fecData, x.phase = .encoding i ∧ (List.range x.config.fecStripes).foldlM
        (encodeStripe x (x.slices i)) (x.slices i).fecData = some fecData ∧
      x' = { x.modify i fun s => { s with fecData := fecData } with phase := .sending i }) ∨
    (∀ j, (x'.slices j).fecData = (x.slices j).fecData) ∧
      ∀ i, x.phase = .encoding i → x'.phase = .encoding i ∧ x'.sent = x.sent := by
  cases hs with
  | encode hphase hfold => exact Or.inl ⟨_, _, hphase, hfold, rfl⟩
  | arrive _ _ => exact Or.inr ⟨fun _ => rfl, fun _ hp => ⟨hp, rfl⟩⟩
  | enqueue _ => exact Or.inr ⟨fun _ => rfl, fun _ hp => ⟨hp, rfl⟩⟩
  | @dispatch m rest hphase _ =>
    obtain ⟨hsame, -⟩ := handleMessage_frame { x with msgs := rest } m
    refine Or.inr ⟨fun j => (hsame j).fecData, fun i hp => ?_⟩
    rw [hphase] at hp
    cases hp
  | goto hgoto => exact Or.inr ⟨fun _ => rfl, fun i hp => absurd hp (hgoto.not_new.1 i).1⟩
  | retain hphase =>
    refine Or.inr ⟨fun _ => rfl, fun i hp => ?_⟩
    rcases hphase with hphase | hphase
    · rw [hphase] at hp
      cases hp
    · rw [hphase] at hp
      cases hp
  | acked hphase _ _ _ =>
    refine Or.inr ⟨fun j => HasParity.released_fecData .., fun i hp => ?_⟩
    rw [hphase] at hp
    cases hp
  | @rexmit i rest fl map good ds hphase _ =>
    have hsame := fun j => sameSlice_modify (x := x) (f := fun s => s.rexmitted map good) (i := i)
      ⟨rfl, rfl, rfl, rfl, rfl⟩ j
    refine Or.inr ⟨fun j => (hsame j).fecData, fun i hp => ?_⟩
    rw [hphase] at hp
    cases hp
  | @reqack i rest nr fr rxmitId hphase _ =>
    refine Or.inr ⟨fun j => (sameSlice_requested x i j rxmitId).fecData, fun i hp => ?_⟩
    rw [hphase] at hp
    cases hp
  | asyncRound hasync => exact absurd hasync hc.not_asyncRound
  | @form pos bytes m data hphase _ _ _ _ _ _ =>
    refine Or.inr ⟨fun j => ?_, fun i hp => ?_⟩
    · by_cases hj : j = pos
      · rw [hj, formed_slices_self]
        rfl
      · rw [formed_slices_of_ne _ _ _ hj]
    · rw [hphase] at hp
      cases hp
  | finish hphase =>
    refine Or.inr ⟨fun _ => rfl, fun i hp => ?_⟩
    rw [hphase] at hp
    cases hp
  | @transmit i ds hphase _ _ =>
    refine Or.inr ⟨fun j => ?_, fun i hp => ?_⟩
    · show ((requested (transmitted x i ds) i).slices j).fecData = _
      by_cases hj : j = i
      · rw [hj, requested_slices_self, transmitted_slices_self]
        rfl
      · rw [requested_slices_of_ne _ hj, transmitted_slices_of_ne _ _ hj]
    · rw [hphase] at hp
      cases hp
  | @transmitAsync i ds c q hphase _ _ _ _ =>
    refine Or.inr ⟨fun j => HasParity.released_fecData (x.send ds) i j c q, fun i hp => ?_⟩
    rw [hphase] at hp
    cases hp
  | @timeout i rest rxmitId hphase _ =>
    refine Or.inr ⟨fun j => (sameSlice_requested { x with db := afterDrop x i } i j rxmitId).fecData,
      fun i hp => ?_⟩
    rw [hphase] at hp
    cases hp
  | allDropped hphase _ =>
    refine Or.inr ⟨fun _ => rfl, fun i hp => ?_⟩
    rw [hphase] at hp
    cases hp
  | readerWait _ hw =>
    rcases readerWait_frame hw with rfl | ⟨_, _, rfl⟩
    · exact Or.inr ⟨fun _ => rfl, fun _ hp => ⟨hp, rfl⟩⟩
    · exact Or.inr ⟨fun _ => rfl, fun _ hp => ⟨hp, rfl⟩⟩
  | readEnd _ => exact Or.inr ⟨fun _ => rfl, fun _ hp => ⟨hp, rfl⟩⟩
  | read _ _ => exact Or.inr ⟨fun _ => rfl, fun _ hp => ⟨hp, rfl⟩⟩
  | readerConsumed _ _ => exact Or.inr ⟨fun _ => rfl, fun _ hp => ⟨hp, rfl⟩⟩
  | readerWrite _ _ => exact Or.inr ⟨fun _ => rfl, fun _ hp => ⟨hp, rfl⟩⟩
  | readerProduced _ _ => exact Or.inr ⟨fun _ => rfl, fun _ hp => ⟨hp, rfl⟩⟩

theorem Moves.extends (hm : Moves x a x') : ∃ rest buf ds, x'.cuts = x.cuts ++ rest ∧
    x'.input = x.input ++ buf ∧ x'.sent = x.sent ++ ds := by
  cases hm with
  | kept ds _ hcuts _ hinput _ _ _ _ hsent _ =>
    obtain ⟨buf, hinput⟩ := hinput
    exact ⟨[], buf, ds, by rw [hcuts, List.append_nil], hinput, hsent⟩
  | @formed pos bytes m amount data _ _ _ heq =>
    rw [heq]
    exact ⟨[bytes], [], [], rfl, (List.append_nil _).symm, (List.append_nil _).symm⟩
  | wrote _ _ heq =>
    rw [heq]
    exact ⟨[], [], [], (List.append_nil _).symm, (List.append_nil _).symm, (List.append_nil _).symm⟩

/-- The parity blocks of the slice in flight are there unless they are computed next. -/
def HasEncoded (x : Sender) : Prop :=
  x.config.hasFlag flagFec = true → ∀ i, (x.slices i).inFlight → 0 < (x.slices i).bytes →
    x.phase ≠ .encoding i → ∀ no < x.config.fecStripes * x.config.fecRedundancy,
      IsParity x.config.blockSize (wireStripes x.config.fecStripes)
        (x.sliceInput (x.slices i).sliceNo) (asU16 no) ((x.slices i).fecData.getD no [])

theorem HasEncoded.congr (h : HasEncoded x) (hcut : Cut x) (hle : x.cuts.sum ≤ x.input.length)
    (hm : Moves x a x') (hr : Resized x x'.config) {j : Fin 8}
    (hslot : Keeps (x.slices j) (x'.slices j))
    (hfec : (x'.slices j).fecData = (x.slices j).fecData) (hphase : x.phase ≠ .encoding j)
    (hflag : x'.config.hasFlag flagFec = true) (hj : (x'.slices j).inFlight)
    (hbytes : 0 < (x'.slices j).bytes) :
    ∀ no < x'.config.fecStripes * x'.config.fecRedundancy,
      IsParity x'.config.blockSize (wireStripes x'.config.fecStripes)
        (x'.sliceInput (x'.slices j).sliceNo) (asU16 no) ((x'.slices j).fecData.getD no []) := by
  obtain ⟨hj', hno, -, hsame⟩ := hslot hj
  obtain ⟨h0, hlt, -, -⟩ := hcut.slot j hj'
  obtain ⟨rest, buf, -, hcuts, hinput, -⟩ := hm.extends
  obtain ⟨hsize, hstripes, hred⟩ := hr.fec
  rw [hsize, hstripes, hred, hno, hfec, sliceInput_congr hinput hcuts h0 hlt hle]
  refine h ?_ j hj' (hsame ▸ hbytes) hphase
  rwa [← hasFlag_congr hr.flags]

theorem encoded_isParity {t : Transfer} (hcut : Cut x) (hq : Queues x F R P D) (hi : Intact x)
    (hsends : Sends t x) (hparity : HasParity x.config.fecStripes x.config.fecRedundancy x)
    (hsizes : Sizes 0 (128 * x.config.fecStripes) x)
    (hflag : x.config.hasFlag flagFec = true) (hred : x.config.fecRedundancy ≤ 128)
    (hnos : x.config.fecStripes * x.config.fecRedundancy ≤ 65536 ∨
      wireStripes x.config.fecStripes = 0) {i : Fin 8} {fecData : List (List UInt8)}
    (hflight : (x.slices i).inFlight) (hphase : x.phase = .encoding i)
    (hfold : (List.range x.config.fecStripes).foldlM (encodeStripe x (x.slices i))
      (x.slices i).fecData = some fecData) :
    ∀ no < x.config.fecStripes * x.config.fecRedundancy,
      IsParity x.config.blockSize (wireStripes x.config.fecStripes)
        (x.sliceInput (x.slices i).sliceNo) (asU16 no) (fecData.getD no []) := by
  obtain ⟨h0, hlt, hbytes, -⟩ := hcut.slot i hflight
  have hsize : t.size (x.slices i).sliceNo = (x.slices i).bytes := by
    rw [hsends.size _ h0, hbytes]
  have hpos := hparity.bytes_pos i hphase
  have hformed : Formed t x.config.fecStripes x.config.fecRedundancy (x.slices i).sliceNo i x :=
    { blockSize := hsends.blockSize.symm
      fecFlag := hflag
      fecStripes := rfl
      fecRedundancy := rfl
      ringSize := hq.size
      sliceNo := rfl
      bytes := hsize.symm
      size_pos := by omega
      content := by
        rw [hsize, hsends.content]
        exact hi.slots i hflight
      fecData := by
        rw [hsends.blockSize]
        exact hparity.blocks i }
  have hstripe : ∀ stripe < x.config.fecStripes,
      (stripeOf t.blockSize x.config.fecStripes (t.content (x.slices i).sliceNo) stripe).length
        ≤ 128 := by
    intro stripe hstripe
    rw [stripeOf, List.length_map]
    refine length_stripeIndices_le hstripe ?_
    have hcutLe : (x.slices i).bytes ≤ x.config.blockSize * (128 * x.config.fecStripes) := by
      rw [hbytes, List.getD_eq_getElem _ _ (by omega)]
      exact hsizes.cuts _ (List.getElem_mem _)
    rw [Transfer.length_content h0, hsize, hsends.blockSize]
    by_contra hgt
    have hblock := (lt_blocksIn x.config.blockSize_pos).mp (Nat.lt_of_not_le hgt)
    rw [Nat.mul_comm] at hblock
    omega
  obtain ⟨fecData', hencode, hencoded⟩ := hformed.fecEncodeSlice hred hstripe
  have hsame : fecData' = fecData := by
    rw [SendData.fecEncodeSlice, hfold] at hencode
    have hslots := congrFun (congrArg Sender.slices (Option.some.inj hencode)) i
    rw [modify_slices_self, modify_slices_self] at hslots
    exact (congrArg Slice.fecData hslots).symm
  intro no hno
  have hno' := hencoded.isParity hred hstripe hnos hno
  rw [hsame, hsends.blockSize, hsends.content] at hno'
  exact hno'

/-- The numbers of the parity blocks, if there are any. -/
def ParityReadable (c : NetConfig) : Prop :=
  c.hasFlag flagFec = true → c.fecRedundancy ≤ 128 ∧
    (c.fecStripes * c.fecRedundancy ≤ 65536 ∨ wireStripes c.fecStripes = 0)

theorem HasEncoded.step (h : HasEncoded x) (hc : Control x) (hcut : Cut x) (hq : Queues x F R P D)
    (hi : Intact x) {t : Transfer} (hsends : Sends t x) (hreadable : ParityReadable x.config)
    (hparity : x.config.hasFlag flagFec = true →
      HasParity x.config.fecStripes x.config.fecRedundancy x ∧
        Sizes 0 (128 * x.config.fecStripes) x)
    (hs : StepTo x a x') : HasEncoded x' := by
  have hm := hs.moves hc
  have hr := hs.resized hc
  have hle : x.cuts.sum ≤ x.input.length := by
    have hle := hq.le
    have hsum : x.cuts.sum = D := hq.cut
    omega
  intro hflag j hj hbytes hphase
  rcases hs.encodes_or hc with ⟨i, fecData, hphase', hfold, rfl⟩ | ⟨hfec, hat⟩
  · -- the slot at hand is encoded
    have hi' : (x.slices i).inFlight := Or.inl (hc.fresh i (Or.inl hphase'))
    obtain ⟨hparity, hsizes⟩ := hparity hflag
    by_cases hji : j = i
    · subst hji
      show ∀ no < _, IsParity _ _
        (x.sliceInput ((x.modify j fun s => { s with fecData := fecData }).slices j).sliceNo) _
        (((x.modify j fun s => { s with fecData := fecData }).slices j).fecData.getD no [])
      rw [modify_slices_self]
      exact encoded_isParity hcut hq hi hsends hparity hsizes hflag (hreadable hflag).1
        (hreadable hflag).2 hi' hphase' hfold
    · change ((x.modify i fun s => { s with fecData := fecData }).slices j).inFlight at hj
      change 0 < ((x.modify i fun s => { s with fecData := fecData }).slices j).bytes at hbytes
      show ∀ no < _, IsParity _ _
        (x.sliceInput ((x.modify i fun s => { s with fecData := fecData }).slices j).sliceNo) _
        (((x.modify i fun s => { s with fecData := fecData }).slices j).fecData.getD no [])
      rw [modify_slices_of_ne _ _ _ hji] at hj hbytes ⊢
      refine h hflag j hj hbytes fun hp => hji ?_
      rw [hphase'] at hp
      exact (Phase.encoding.inj hp).symm
  · have hbefore : x.phase ≠ .encoding j := fun hp => hphase (hat j hp).1
    have hkept : ∀ hslot : Keeps (x.slices j) (x'.slices j), _ := fun hslot =>
      h.congr hcut hle hm hr hslot (hfec j) hbefore hflag hj hbytes
    cases hs.moves hc with
    | kept _ hslots _ _ _ _ _ _ _ _ _ => exact hkept (hslots j)
    | @formed pos bytes m amount data _ _ _ heq =>
      by_cases hjp : j = pos
      · -- a new slice with data is encoded next
        subst hjp
        rw [heq] at hphase hflag hbytes
        rw [formed_slices_self] at hbytes
        change (if x.config.hasFlag flagFec ∧ bytes > 0 then Phase.encoding j else .sending j)
          ≠ .encoding j at hphase
        rw [if_pos ⟨hflag, hbytes⟩] at hphase
        exact absurd rfl hphase
      · refine hkept ?_
        rw [heq, formed_slices_of_ne _ _ _ hjp]
        exact Keeps.refl _
    | wrote _ _ heq =>
      refine hkept ?_
      rw [heq]
      exact Keeps.refl _

/-! ### What a packet says -/

/-- The packet has the number and the size of a slice that has been cut, and a block or a parity
block of it. -/
structure Tells (x : Sender) (d : Datagram) : Prop where
  slice : ∃ s : ℤ, 0 ≤ s ∧ s < x.cuts.length ∧ d.slice = some (s, asI32 (x.cuts.getD s.toNat 0))
  data : ∀ msg payload, d = .data msg payload →
    msg.blockNo * x.config.blockSize < x.cuts.getD msg.sliceNo.toNat 0 ∧
      payload = blockOf x.config.blockSize (x.sliceInput msg.sliceNo) msg.blockNo
  fec : ∀ msg payload, d = .fec msg payload → 0 < x.cuts.getD msg.sliceNo.toNat 0 ∧
    msg.stripes = asI16 (asI32 x.config.fecStripes) ∧
      IsParity x.config.blockSize (wireStripes x.config.fecStripes) (x.sliceInput msg.sliceNo)
        msg.blockNo payload

theorem Tells.moves {d : Datagram} (h : Tells x d) (hle : x.cuts.sum ≤ x.input.length)
    (hm : Moves x a x') (hr : Resized x x'.config) : Tells x' d := by
  obtain ⟨rest, buf, -, hcuts, hinput, -⟩ := hm.extends
  obtain ⟨hsize, hstripes, hred⟩ := hr.fec
  obtain ⟨s, h0, hlt, hslice⟩ := h.slice
  have hgetD : x'.cuts.getD s.toNat 0 = x.cuts.getD s.toNat 0 := by
    rw [hcuts, getD_cuts_append h0 hlt]
  have hsame := sliceInput_congr hinput hcuts h0 hlt hle
  refine ⟨⟨s, h0, ?_, by rw [hgetD]; exact hslice⟩, fun msg payload hd => ?_, fun msg payload hd => ?_⟩
  · rw [hcuts, List.length_append]
    omega
  · obtain ⟨hrange, hpayload⟩ := h.data msg payload hd
    rw [hd] at hslice
    obtain ⟨rfl, -⟩ := Prod.mk.inj (Option.some.inj hslice)
    rw [hgetD, hsize, hsame]
    exact ⟨hrange, hpayload⟩
  · obtain ⟨hpos, hfield, hparity⟩ := h.fec msg payload hd
    rw [hd] at hslice
    obtain ⟨rfl, -⟩ := Prod.mk.inj (Option.some.inj hslice)
    rw [hgetD, hsize, hstripes, hsame]
    exact ⟨hpos, hfield, hparity⟩

theorem PacketOf.tells {i : Fin 8} {d : Datagram} (h : PacketOf x i d) (hcut : Cut x)
    (hq : Queues x F R P D) (hi : Intact x) (hencoded : HasEncoded x)
    (hflight : (x.slices i).inFlight) (hphase : d.parityNos ≠ [] → x.phase ≠ .encoding i) :
    Tells x d := by
  obtain ⟨h0, hlt, hbytes, -⟩ := hcut.slot i hflight
  have hring := hq.bytes_le hflight
  rcases h with ⟨k, hk, hd⟩ | ⟨hflag, hpos, no, hno, hd⟩ | ⟨rxmit, hd⟩
  · have hmul := lt_nrBlocks.mp hk
    have hsmall : asU16 k = k := by
      rw [hq.size, Nat.mul_comm] at hring
      have : k < 4096 := Nat.lt_of_mul_lt_mul_right (hmul.trans_le hring)
      exact asU16_of_lt (by omega)
    rw [dataPacket_eq hq.pos hring hk hd, hsmall, hi.slots i hflight, hbytes]
    refine ⟨⟨(x.slices i).sliceNo, h0, hlt, by rw [Datagram.slice]⟩, fun msg payload heq => ?_, fun msg payload heq => (by cases heq)⟩
    obtain ⟨rfl, rfl⟩ := Datagram.data.inj heq
    rw [hbytes] at hmul
    exact ⟨hmul, rfl⟩
  · obtain ⟨payload, hget, rfl⟩ := Option.map_eq_some_iff.mp hd
    rw [hbytes]
    refine ⟨⟨(x.slices i).sliceNo, h0, hlt, by rw [Datagram.slice]⟩, fun msg payload heq => (by cases heq), fun msg payload heq => ?_⟩
    obtain ⟨rfl, rfl⟩ := Datagram.fec.inj heq
    have hparity := hencoded hflag i hflight hpos (hphase (by simp [Datagram.parityNos])) no
      (by rwa [Nat.mul_comm])
    rw [List.getD_eq_getElem?_getD, hget, Option.getD_some] at hparity
    rw [hbytes] at hpos
    exact ⟨hpos, by simp only, hparity⟩
  · rw [hd, hbytes]
    exact ⟨⟨(x.slices i).sliceNo, h0, hlt, by rw [Datagram.slice]⟩, fun msg payload heq => (by cases heq),
      fun msg payload heq => (by cases heq)⟩

theorem Tells.carries {d : Datagram} {t : Transfer} (h : Tells x d) (hsends : Sends t x) :
    t.Carries (wireStripes x.config.fecStripes) d := by
  obtain ⟨s, h0, hlt, hslice⟩ := h.slice
  have hcuts := hsends.cuts
  have hsize := hsends.size s h0
  have hle := t.size_le s
  have hfits : t.size s < 2 ^ 31 := by
    have hlt := t.blockSize_lt
    omega
  rw [← hsize, asI32_natCast hfits] at hslice
  have hIs : t.IsSlice s (t.size s) := ⟨h0, by omega, rfl⟩
  cases d with
  | data msg payload =>
    obtain ⟨rfl, hb⟩ := Prod.mk.inj (Option.some.inj hslice)
    obtain ⟨hrange, hpayload⟩ := h.data msg payload rfl
    rw [← hsends.size _ h0, ← hsends.blockSize] at hrange
    rw [← hsends.blockSize, ← hsends.content] at hpayload
    exact ⟨⟨hb ▸ hIs, hrange⟩, hpayload⟩
  | fec msg payload =>
    obtain ⟨rfl, hb⟩ := Prod.mk.inj (Option.some.inj hslice)
    obtain ⟨hpos, hfield, hparity⟩ := h.fec msg payload rfl
    rw [← hsends.size _ h0] at hpos
    rw [← hsends.blockSize, ← hsends.content] at hparity
    exact ⟨⟨hb ▸ hIs, hpos⟩, by rw [hfield, wireStripes], hparity⟩
  | reqack msg =>
    obtain ⟨rfl, hb⟩ := Prod.mk.inj (Option.some.inj hslice)
    show t.IsSlice _ _
    rwa [hb]
  | skipped => cases hslice
  | unexpected => cases hslice

/-! ### Runs -/

/-- Half-duplex mode, slices of at most 1024 blocks whose size fits its field, and numbers of parity
blocks that fit theirs. -/
structure HalfDuplexFit (c : NetConfig) : Prop where
  one : c.maxInFlight = 1
  slices : SlicesFit c
  blockSize : maxSliceSize * c.blockSize < 2 ^ 31
  parity : ParityReadable c

structure Faithful (x : Sender) : Prop where
  sound : Sound x
  alone : Alone x
  intact : Intact x
  pieces : ∃ slices, Pieces x slices
  sizes : Sizes 1 1024 x
  blockSize : maxSliceSize * x.config.blockSize < 2 ^ 31
  readable : ParityReadable x.config
  parity : x.config.hasFlag flagFec = true →
    HasParity x.config.fecStripes x.config.fecRedundancy x ∧ Sizes 0 (128 * x.config.fecStripes) x
  encoded : HasEncoded x
  tells : ∀ d ∈ x.sent, Tells x d

namespace Faithful

theorem sum_le (h : Faithful x) : x.cuts.sum ≤ x.input.length := by
  obtain ⟨_, _, _, D, hq⟩ := h.sound.queues
  have hle := hq.le
  have hsum : x.cuts.sum = D := hq.cut
  omega

theorem sends (h : Faithful x) : ∃ t, Sends t x := by
  obtain ⟨slices, hpieces⟩ := h.pieces
  exact hpieces.sends h.sizes h.sum_le h.blockSize

theorem step (h : Faithful x) (hstep : SendData.step x a = some x') : Faithful x' := by
  have hs := step_cases hstep
  have hc := h.sound.control
  have hcut := h.sound.cut
  have hm := hs.moves hc
  have hr := hs.resized hc
  obtain ⟨hsize, hstripes, hred⟩ := hr.fec
  obtain ⟨F, R, P, D, hq⟩ := h.sound.queues
  obtain ⟨slices, hpieces⟩ := h.pieces
  obtain ⟨t, hsends⟩ := h.sends
  refine
    { sound := h.sound.step hs
      alone := h.alone.step hc hcut hs
      intact := h.intact.moves hq hcut (h.alone.writesFree hcut hq hstep) hm
      pieces := ⟨_, hpieces.step h.sound h.sizes.limits.lo_size hs⟩
      sizes := h.sizes.step hc hcut hs
      blockSize := by rw [hsize]; exact h.blockSize
      readable := ?_
      parity := ?_
      encoded := h.encoded.step hc hcut hq h.intact hsends h.readable h.parity hs
      tells := ?_ }
  · rw [ParityReadable, hasFlag_congr hr.flags, hstripes, hred]
    exact h.readable
  · rw [hasFlag_congr hr.flags, hstripes, hred]
    intro hflag
    obtain ⟨hparity, hsizes⟩ := h.parity hflag
    exact ⟨hparity.step hc hs, hsizes.step hc hcut hs⟩
  · intro d hd
    suffices hold : Tells x d from hold.moves h.sum_le hm hr
    cases hm with
    | @kept ds _ _ _ _ _ _ _ _ hsent hds =>
      rw [hsent] at hd
      rcases List.mem_append.mp hd with hd | hd
      · exact h.tells d hd
      · obtain ⟨i, hi, hpacket⟩ := hds d hd
        refine hpacket.tells hcut hq h.intact h.encoded hi fun _ hphase => ?_
        -- nothing is sent between the cut of a slice and its parity blocks
        have hnone : ds = [] := by
          rcases hs.encodes_or hc with ⟨_, _, _, _, rfl⟩ | ⟨-, hat⟩
          · exact List.self_eq_append_right.mp hsent
          · rw [(hat i hphase).2] at hsent
            exact List.self_eq_append_right.mp hsent
        rw [hnone] at hd
        cases hd
    | formed _ _ _ heq =>
      rw [heq] at hd
      exact h.tells d hd
    | wrote _ _ heq =>
      rw [heq] at hd
      exact h.tells d hd

theorem carries (h : Faithful x) {t : Transfer} (hsends : Sends t x) :
    ∀ d ∈ x.sent, t.Carries (wireStripes x.config.fecStripes) d := fun d hd =>
  (h.tells d hd).carries hsends

end Faithful

end HasEncoded

theorem faithful_start {config : NetConfig} {db : ParticipantsDb} {x : Sender}
    (hfit : HalfDuplexFit config) (h : Sender.start config db = some x) : Faithful x := by
  obtain ⟨_, _, _, hconfig⟩ := start_config h
  have hflags : x.config.flags = config.flags := start_flags h
  have hstripes : x.config.fecStripes = config.fecStripes := by rw [hconfig]
  have hred : x.config.fecRedundancy = config.fecRedundancy := by rw [hconfig]
  have hsent : x.sent = [] := by
    simp only [Sender.start, Option.bind_eq_bind, Option.bind_eq_some_iff] at h
    obtain ⟨fifo, -, nrFec, -, c₁, -, c₂, -, h⟩ := h
    obtain rfl := Option.some.inj h
    rfl
  have hnone : ∀ i, ¬(x.slices i).inFlight := by
    simp only [Sender.start, Option.bind_eq_bind, Option.bind_eq_some_iff] at h
    obtain ⟨fifo, -, nrFec, -, c₁, -, c₂, -, h⟩ := h
    obtain rfl := Option.some.inj h
    rintro i (hi | hi)
    · cases hi
    · cases hi
  exact
    { sound := sound_start h
      alone := alone_start hfit.one h
      intact := intact_start h
      pieces := ⟨[], pieces_start h⟩
      sizes := slicesFit_sizes hfit.slices h
      blockSize := by rw [start_blockSize h]; exact hfit.blockSize
      readable := by
        rw [ParityReadable, hasFlag_congr hflags, hstripes, hred]
        exact hfit.parity
      parity := by
        rw [hasFlag_congr hflags, hstripes, hred]
        exact fun hfec => ⟨hasParity_start hfec h, sizes_start_fec hfec h⟩
      encoded := fun _ i hi => absurd hi (hnone i)
      tells := fun d hd => by
        rw [hsent] at hd
        cases hd }

/-- In every run in half-duplex mode the ring keeps the bytes of the slice in flight, and there is
one transfer, of the slices of the input, whose packets are all that has been sent; with a packet of
its end marker, it has the whole input. -/
theorem sent_carries (config : NetConfig) (db : ParticipantsDb) (x₀ x : Sender)
    (hfit : HalfDuplexFit config) (hstart : Sender.start config db = some x₀)
    (hrun : Run.Reach step (fun _ _ => True) x₀ x) :
    RingIntact x ∧ ∃ t : Transfer, t.blockSize = x.config.blockSize ∧ t.Whole ∧
      t.slices.flatten <+: x.input ∧ (∀ s, t.content s = x.sliceInput s) ∧
      ∀ d ∈ x.sent, t.Carries (wireStripes x.config.fecStripes) d ∧
        (∀ b, d.slice = some ((t.endNo : ℤ), b) → t.slices.flatten = x.input) := by
  have h := hrun.invariant (I := Faithful) (faithful_start hfit hstart)
    fun s a s' hi _ hs => hi.step hs
  obtain ⟨t, hsends⟩ := h.sends
  refine ⟨⟨h.intact.slots, fun msg payload hd => (h.intact.sent msg payload hd).2.2⟩, t,
    hsends.blockSize, hsends.whole, ?_, hsends.content, fun d hd =>
      ⟨h.carries hsends d hd, fun b hb => ?_⟩⟩
  · rw [hsends.flatten]
    exact List.take_prefix _ _
  · obtain ⟨s, -, hlt, hslice⟩ := (h.tells d hd).slice
    rw [hb] at hslice
    obtain ⟨hs, -⟩ := Prod.mk.inj (Option.some.inj hslice)
    exact (hsends.ended (by omega)).2

/-- A half-duplex transfer with one parity block for each slice. -/
def oneParity : NetConfig :=
  { halfDuplex with flags := flagFec, fecStripes := 1, fecRedundancy := 1, fecStripesize := 128 }

theorem oneParity_fit : HalfDuplexFit oneParity where
  one := by decide
  slices size hsize := by
    obtain rfl : 128 = size := Option.some.inj hsize
    decide
  blockSize := by decide
  parity _ := by decide

/-- One byte: its block, the parity block and the REQACK. -/
theorem sent_carries_oneParity : ∃ (x : Sender) (t : Transfer), x.sent.length = 3 ∧
    t.slices.flatten <+: [7] ∧ ∀ d ∈ x.sent, t.Carries 1 d := by
  have hexec : ((Sender.start oneParity twoParticipants).bind fun x =>
      Run.exec step (fun _ _ => True) x (sendOne ++ [.advance])).map
      (fun x => decide (x.sent.length = 3 ∧ x.input = [7] ∧ x.config.fecStripes = 1))
        = some true := by decide +kernel
  obtain ⟨x, hx, hp⟩ := Option.map_eq_some_iff.mp hexec
  obtain ⟨x₀, hstart, hx⟩ := Option.bind_eq_some_iff.mp hx
  obtain ⟨hsent, hinput, hstripes⟩ := of_decide_eq_true hp
  obtain ⟨-, t, -, -, hpre, -, hcarries⟩ := sent_carries oneParity twoParticipants x₀ x
    oneParity_fit hstart (Run.reach_of_exec hx)
  rw [hinput] at hpre
  rw [hstripes] at hcarries
  exact ⟨x, t, hsent, hpre, fun d hd => (hcarries d hd).1⟩

end Udpcast.SendData
