import Udpcast.Lib.Region
import Udpcast.SendData.Config
import Udpcast.SendData.Packets

/-!
# The parity buffer of a slice

`fec_data` is one buffer of bytes.  `fec_encode_slice` splits it into the regions of one stripe after
the other, and `fec_encode` fills them.
-/

namespace Udpcast.SendData

open Sender

/-- The region of parity block `r` of a stripe in a buffer of `len` bytes: `(offset, end)`. -/
def fecRegion (c : NetConfig) (len stripe r : ℕ) : ℕ × ℕ :=
  let offset := (stripe + r * c.fecStripes) * c.blockSize
  (offset, min (offset + c.blockSize) len)

/-- `fec_offsets` of a stripe (senddata.rs:1046-1052). -/
def fecOffsets (c : NetConfig) (len stripe : ℕ) : List (ℕ × ℕ) :=
  (List.range c.fecRedundancy).map (fecRegion c len stripe)

/-- One turn of the stripe loop of `fec_encode_slice`, on the bytes of the buffer
(senddata.rs:1023-1068). -/
def encodeStripeBytes (x : Sender) (slice : Slice) (fecData : List UInt8) (stripe : ℕ) :
    Option (List UInt8) := do
  let dataPtrs ← (stripeIndices (x.config.nrBlocks slice.bytes) x.config.fecStripes stripe).mapM
    (fecBlock x slice)
  let offsets := fecOffsets x.config fecData.length stripe
  if dataPtrs = [] ∨ offsets = [] then some fecData
  else do
    let fecPtrs ← Region.split 0 fecData offsets
    let fecPtrs ← Fec.fecEncode x.config.blockSize dataPtrs fecPtrs
    some (((offsets.map Prod.fst).zip fecPtrs).foldl Region.put fecData)

/-- `fec_encode_slice` on the bytes of the buffer. -/
def encodeSliceBytes (x : Sender) (slice : Slice) : Option (List UInt8) :=
  (List.range x.config.fecStripes).foldlM (encodeStripeBytes x slice) slice.fecData.flatten

/-! ### The regions are blocks -/

section Regions

variable {x : Sender} {slice : Slice} {fecData : List (List UInt8)} {stripe : ℕ}

theorem length_fecBlock {i : ℕ} {b : List UInt8} (h : fecBlock x slice i = some b) :
    b.length = x.config.blockSize := by
  have hlt : slice.bytes % x.config.blockSize < x.config.blockSize :=
    Nat.mod_lt _ x.config.blockSize_pos
  unfold fecBlock at h
  dsimp only at h
  split at h
  · rw [← Option.some.inj h, List.length_append, Ring.length_window, List.length_replicate]
    omega
  · rw [Fifo.readAt] at h
    split at h
    · rw [← Option.some.inj h, Ring.read, List.length_append, List.length_map, List.length_map,
        List.length_range, List.length_range]
      omega
    · cases h

theorem blocks_mapM_fecBlock {indices : List ℕ} {dataPtrs : List (List UInt8)}
    (h : indices.mapM (fecBlock x slice) = some dataPtrs) :
    Fec.Blocks x.config.blockSize dataPtrs.length dataPtrs where
  length := rfl
  size := by
    intro b hb
    obtain ⟨i, -, hi⟩ := mem_of_mapM_some h b hb
    exact length_fecBlock hi

theorem blocks_fecEncode {blockSize n : ℕ} {data fec parity : List (List UInt8)} (hdata : data ≠ [])
    (hd : Fec.Blocks blockSize data.length data) (hf : Fec.Blocks blockSize n fec)
    (h : Fec.fecEncode blockSize data fec = some parity) : Fec.Blocks blockSize n parity := by
  have hguard : data.length ≤ 128 ∧ fec.length ≤ 128 := by
    by_contra hnot
    unfold Fec.fecEncode at h
    rw [if_neg hnot] at h
    cases h
  have hn : n ≤ 128 := by
    rw [← hf.length]
    exact hguard.2
  obtain ⟨parity', hparity, hblocks, -⟩ := Fec.fecEncode_spec hdata hguard.1 hn hd hf
  rw [h] at hparity
  obtain rfl := Option.some.inj hparity
  exact hblocks

/-- The numbers of the parity blocks of a stripe. -/
def parityNos (c : NetConfig) (stripe : ℕ) : List ℕ :=
  (List.range c.fecRedundancy).map fun r => stripe + r * c.fecStripes

theorem parityNos_lt (hlt : stripe < x.config.fecStripes) :
    ∀ no ∈ parityNos x.config stripe, no < x.config.fecStripes * x.config.fecRedundancy := by
  intro no hno
  obtain ⟨r, hr, rfl⟩ := List.mem_map.mp hno
  exact Buffer.stride_lt hlt (List.mem_range.mp hr)

theorem parityNos_sorted (hlt : stripe < x.config.fecStripes) :
    (parityNos x.config stripe).Pairwise (· < ·) := by
  rw [parityNos, List.pairwise_map]
  refine List.Pairwise.imp (fun {a b} hab => ?_) List.pairwise_lt_range
  have hstep : a * x.config.fecStripes < b * x.config.fecStripes :=
    Nat.mul_lt_mul_of_pos_right hab (by omega)
  omega

variable (hfec : Fec.Blocks x.config.blockSize (x.config.fecStripes * x.config.fecRedundancy)
  fecData)

include hfec

theorem fecRegion_eq (hlt : stripe < x.config.fecStripes) {r : ℕ}
    (hr : r < x.config.fecRedundancy) :
    fecRegion x.config fecData.flatten.length stripe r
      = ((stripe + r * x.config.fecStripes) * x.config.blockSize,
        (stripe + r * x.config.fecStripes) * x.config.blockSize + x.config.blockSize) := by
  have hno : stripe + r * x.config.fecStripes < x.config.fecStripes * x.config.fecRedundancy :=
    Buffer.stride_lt hlt hr
  have hle : (stripe + r * x.config.fecStripes + 1) * x.config.blockSize ≤ fecData.flatten.length := by
    rw [Region.length_flatten hfec.size, hfec.length]
    exact Nat.mul_le_mul_right _ hno
  rw [Nat.add_mul, Nat.one_mul] at hle
  unfold fecRegion
  dsimp only
  rw [Nat.min_eq_left hle]

theorem fecOffsets_eq (hlt : stripe < x.config.fecStripes) :
    fecOffsets x.config fecData.flatten.length stripe = (parityNos x.config stripe).map fun no =>
      (no * x.config.blockSize, no * x.config.blockSize + x.config.blockSize) := by
  rw [fecOffsets, parityNos, List.map_map]
  exact List.map_congr_left fun r hr => fecRegion_eq hfec hlt (List.mem_range.mp hr)

theorem blocks_parityNos (hlt : stripe < x.config.fecStripes) :
    Fec.Blocks x.config.blockSize x.config.fecRedundancy
      ((parityNos x.config stripe).map (fecData.getD · [])) where
  length := by rw [List.length_map, parityNos, List.length_map, List.length_range]
  size := by
    intro b hb
    obtain ⟨no, hno, rfl⟩ := List.mem_map.mp hb
    exact hfec.getD (parityNos_lt hlt no hno)

theorem encodeStripe_eq (hlt : stripe < x.config.fecStripes) {dataPtrs : List (List UInt8)}
    (hdata : (stripeIndices (x.config.nrBlocks slice.bytes) x.config.fecStripes stripe).mapM
      (fecBlock x slice) = some dataPtrs) :
    encodeStripe x slice fecData stripe =
      if dataPtrs = [] ∨ parityNos x.config stripe = [] then some fecData
      else (Fec.fecEncode x.config.blockSize dataPtrs
        ((parityNos x.config stripe).map (fecData.getD · []))).map fun parity =>
          ((parityNos x.config stripe).zip parity).foldl (fun d p => d.set p.1 p.2) fecData := by
  have hblocks : (parityNos x.config stripe).mapM (fecData[·]?)
      = some ((parityNos x.config stripe).map (fecData.getD · [])) :=
    Buffer.mapM_eq_some fun no hno => hfec.getElem? (parityNos_lt hlt no hno)
  unfold encodeStripe
  rw [hdata]
  simp only [Option.bind_eq_bind, Option.bind_some]
  change (if dataPtrs = [] ∨ parityNos x.config stripe = [] then some fecData
    else ((parityNos x.config stripe).mapM (fecData[·]?)).bind _) = _
  rw [hblocks, Option.bind_some]
  split
  · rfl
  · cases Fec.fecEncode x.config.blockSize dataPtrs
      ((parityNos x.config stripe).map (fecData.getD · [])) with
    | none => rfl
    | some parity => rfl

theorem encodeStripeBytes_flatten (hlt : stripe < x.config.fecStripes) :
    encodeStripeBytes x slice fecData.flatten stripe
      = (encodeStripe x slice fecData stripe).map List.flatten := by
  have hnos := parityNos_lt hlt
  have hregions : Region.split 0 fecData.flatten (fecOffsets x.config fecData.flatten.length stripe)
      = some ((parityNos x.config stripe).map (fecData.getD · [])) := by
    have hsplit := Region.split_flatten hfec.size (k := 0) (parityNos_sorted hlt)
      (fun _ _ => Nat.zero_le _) (by rw [hfec.length]; exact hnos)
    rw [Nat.zero_mul, List.drop_zero] at hsplit
    rw [fecOffsets_eq hfec hlt, hsplit]
  have hstarts : (fecOffsets x.config fecData.flatten.length stripe).map Prod.fst
      = (parityNos x.config stripe).map (· * x.config.blockSize) := by
    rw [fecOffsets_eq hfec hlt, List.map_map]
    rfl
  have hempty : fecOffsets x.config fecData.flatten.length stripe = []
      ↔ parityNos x.config stripe = [] := by
    rw [fecOffsets_eq hfec hlt, List.map_eq_nil_iff]
  unfold encodeStripeBytes
  cases hdata : (stripeIndices (x.config.nrBlocks slice.bytes) x.config.fecStripes stripe).mapM
    (fecBlock x slice) with
  | none =>
    unfold encodeStripe
    rw [hdata]
    rfl
  | some dataPtrs =>
    rw [encodeStripe_eq hfec hlt hdata]
    simp only [Option.bind_eq_bind, Option.bind_some, hempty, hstarts, hregions]
    split
    · rfl
    · rename_i hsome
      rw [not_or] at hsome
      cases hencode : Fec.fecEncode x.config.blockSize dataPtrs
        ((parityNos x.config stripe).map (fecData.getD · [])) with
      | none => rfl
      | some parity =>
        have hparity := blocks_fecEncode hsome.1 (blocks_mapM_fecBlock hdata)
          (blocks_parityNos hfec hlt) hencode
        simp only [Option.bind_some, Option.map_some]
        rw [List.zip_map_left]
        refine congrArg some ?_
        refine Region.foldl_put_flatten hfec.size _ (fun p hp => ?_) fun p hp => ?_
        · rw [hfec.length]
          exact hnos p.1 (List.of_mem_zip hp).1
        · exact hparity.size p.2 (List.of_mem_zip hp).2

theorem blocks_encodeStripe (hlt : stripe < x.config.fecStripes) {fecData' : List (List UInt8)}
    (h : encodeStripe x slice fecData stripe = some fecData') :
    Fec.Blocks x.config.blockSize (x.config.fecStripes * x.config.fecRedundancy) fecData' := by
  cases hdata : (stripeIndices (x.config.nrBlocks slice.bytes) x.config.fecStripes stripe).mapM
    (fecBlock x slice) with
  | none =>
    unfold encodeStripe at h
    rw [hdata] at h
    cases h
  | some dataPtrs =>
    rw [encodeStripe_eq hfec hlt hdata] at h
    split at h
    · obtain rfl := Option.some.inj h
      exact hfec
    · rename_i hsome
      rw [not_or] at hsome
      obtain ⟨parity, hencode, rfl⟩ := Option.map_eq_some_iff.mp h
      have hparity := blocks_fecEncode hsome.1 (blocks_mapM_fecBlock hdata)
        (blocks_parityNos hfec hlt) hencode
      have hset : ∀ (ps : List (ℕ × List UInt8)) (d : List (List UInt8)),
          (∀ p ∈ ps, p.2.length = x.config.blockSize) →
          Fec.Blocks x.config.blockSize (x.config.fecStripes * x.config.fecRedundancy) d →
          Fec.Blocks x.config.blockSize (x.config.fecStripes * x.config.fecRedundancy)
            (ps.foldl (fun d p => d.set p.1 p.2) d) := by
        intro ps
        induction ps with
        | nil => exact fun d _ hd => hd
        | cons p ps ih =>
          intro d hps hd
          exact ih _ (fun q hq => hps q (List.mem_cons_of_mem _ hq))
            (hd.set p.1 (hps p List.mem_cons_self))
      exact hset _ _ (fun p hp => hparity.size p.2 (List.of_mem_zip hp).2) hfec

theorem encodeStripe_isSome (hlt : stripe < x.config.fecStripes)
    (hred : x.config.fecRedundancy ≤ 128)
    (hle : (stripeIndices (x.config.nrBlocks slice.bytes) x.config.fecStripes stripe).length ≤ 128)
    (hread : ∀ i ∈ stripeIndices (x.config.nrBlocks slice.bytes) x.config.fecStripes stripe,
      (fecBlock x slice i).isSome = true) :
    ∃ fecData', encodeStripe x slice fecData stripe = some fecData' := by
  have hdata := Buffer.mapM_eq_some (f := fecBlock x slice)
    (g := fun i => (fecBlock x slice i).getD []) fun i hi => by
      obtain ⟨b, hb⟩ := Option.isSome_iff_exists.mp (hread i hi)
      rw [hb, Option.getD_some]
  rw [encodeStripe_eq hfec hlt hdata]
  split
  · exact ⟨_, rfl⟩
  · rename_i hsome
    rw [not_or] at hsome
    obtain ⟨parity, hencode, -⟩ := Fec.fecEncode_spec hsome.1 (by rwa [List.length_map]) hred
      (blocks_mapM_fecBlock hdata) (blocks_parityNos hfec hlt)
    rw [hencode]
    exact ⟨_, rfl⟩

theorem foldlM_encodeStripeBytes (l : List ℕ) (hl : ∀ stripe ∈ l, stripe < x.config.fecStripes) :
    l.foldlM (encodeStripeBytes x slice) fecData.flatten
      = (l.foldlM (encodeStripe x slice) fecData).map List.flatten := by
  induction l generalizing fecData with
  | nil => rfl
  | cons stripe l ih =>
    have hlt := hl stripe List.mem_cons_self
    rw [List.foldlM_cons, List.foldlM_cons, encodeStripeBytes_flatten hfec hlt]
    cases hstep : encodeStripe x slice fecData stripe with
    | none => rfl
    | some fecData' =>
      exact ih (blocks_encodeStripe hfec hlt hstep) fun σ hσ => hl σ (List.mem_cons_of_mem _ hσ)

end Regions

/-! ### The buffers over a run -/

/-- The buffers of all slots have the size of the configuration, and what is encoded has data. -/
structure HasParity (stripes redundancy : ℕ) (x : Sender) : Prop where
  fecStripes : x.config.fecStripes = stripes
  fecRedundancy : x.config.fecRedundancy = redundancy
  blocks : ∀ i, Fec.Blocks x.config.blockSize (stripes * redundancy) (x.slices i).fecData
  bytes_pos : ∀ i, x.phase = .encoding i → 0 < (x.slices i).bytes

section HasParity

variable {x x' : Sender} {a : Action} {stripes redundancy : ℕ}

theorem Resized.fec {c' : NetConfig} (h : Resized x c') : c'.blockSize = x.config.blockSize ∧
    c'.fecStripes = x.config.fecStripes ∧ c'.fecRedundancy = x.config.fecRedundancy := by
  cases h with
  | same heq =>
    rw [heq]
    exact ⟨rfl, rfl, rfl⟩
  | grown hg =>
    obtain ⟨_, _, rfl⟩ := growSliceSize_eq hg
    exact ⟨rfl, rfl, rfl⟩
  | @reduced _ s _ _ heq =>
    obtain ⟨_, _, heq'⟩ := reduceSliceSize_eq x.config s
    rw [heq, heq']
    exact ⟨rfl, rfl, rfl⟩

namespace HasParity

theorem congr (h : HasParity stripes redundancy x) (hconfig : Resized x x'.config)
    (hslices : ∀ j, (x'.slices j).fecData = (x.slices j).fecData ∧
      (x'.phase = .encoding j → x.phase = .encoding j ∧ (x'.slices j).bytes = (x.slices j).bytes)) :
    HasParity stripes redundancy x' := by
  obtain ⟨hsize, hstripes, hred⟩ := hconfig.fec
  refine ⟨hstripes.trans h.fecStripes, hred.trans h.fecRedundancy, fun i => ?_, fun i hi => ?_⟩
  · rw [(hslices i).1, hsize]
    exact h.blocks i
  · obtain ⟨hphase, hbytes⟩ := (hslices i).2 hi
    rw [hbytes]
    exact h.bytes_pos i hphase

theorem released_fecData (x : Sender) (i j : Fin 8) (c : NetConfig) (q : Produconsum) :
    ((released x i c q).slices j).fecData = (x.slices j).fecData := by
  by_cases hji : j = i
  · subst hji
    rw [released_slices_self]
  · rw [released_slices_of_ne _ _ _ hji]

theorem step (h : HasParity stripes redundancy x) (hc : Control x) (hs : StepTo x a x') :
    HasParity stripes redundancy x' := by
  have hresized := hs.resized hc
  cases hs with
  | arrive _ _ => exact h.congr hresized fun j => ⟨rfl, fun hp => ⟨hp, rfl⟩⟩
  | enqueue _ => exact h.congr hresized fun j => ⟨rfl, fun hp => ⟨hp, rfl⟩⟩
  | @dispatch m rest _ _ =>
    obtain ⟨hsame, _, _, _, heq⟩ := handleMessage_frame { x with msgs := rest } m
    refine h.congr hresized fun j => ⟨(hsame j).fecData, fun hp => ⟨?_, (hsame j).bytes⟩⟩
    rw [heq] at hp
    exact hp
  | @goto a p hgoto =>
    refine h.congr hresized fun j => ⟨rfl, fun hp => ?_⟩
    cases hgoto <;> cases hp
  | retain _ => exact h.congr hresized fun j => ⟨rfl, nofun⟩
  | acked _ _ _ _ => exact h.congr hresized fun j => ⟨released_fecData .., nofun⟩
  | @rexmit i rest fl map good ds _ _ =>
    have hsame := fun j => sameSlice_modify (x := x) (f := fun s => s.rexmitted map good) (i := i)
      ⟨rfl, rfl, rfl, rfl, rfl⟩ j
    exact h.congr hresized fun j => ⟨(hsame j).fecData, nofun⟩
  | @reqack i rest nr fr rxmitId _ _ =>
    exact h.congr hresized fun j => ⟨(sameSlice_requested x i j rxmitId).fecData, nofun⟩
  | asyncRound hasync => exact absurd hasync hc.not_asyncRound
  | @form pos bytes m data _ _ _ _ _ _ _ =>
    refine ⟨h.fecStripes, h.fecRedundancy, fun j => ?_, fun j hp => ?_⟩
    · by_cases hj : j = pos
      · subst hj
        rw [formed_slices_self]
        exact h.blocks j
      · rw [formed_slices_of_ne _ _ _ hj]
        exact h.blocks j
    · -- only a slice with data is encoded
      change (if x.config.hasFlag flagFec ∧ bytes > 0 then Phase.encoding pos else .sending pos)
        = .encoding j at hp
      split at hp
      · rename_i hdata
        obtain rfl := Phase.encoding.inj hp
        rw [formed_slices_self]
        exact hdata.2
      · cases hp
  | finish _ => exact h.congr hresized fun j => ⟨rfl, nofun⟩
  | @encode i fecData _ hfold =>
    have hlt : ∀ stripe ∈ List.range x.config.fecStripes, stripe < x.config.fecStripes :=
      fun _ hmem => List.mem_range.mp hmem
    have hblocks := h.blocks i
    rw [← h.fecStripes, ← h.fecRedundancy] at hblocks
    have hfec := Fold.foldlM_invariant
      (P := Fec.Blocks x.config.blockSize (x.config.fecStripes * x.config.fecRedundancy))
      (fun stripe hmem _ _ hb hstep => blocks_encodeStripe hb (hlt stripe hmem) hstep) hblocks hfold
    rw [h.fecStripes, h.fecRedundancy] at hfec
    refine ⟨h.fecStripes, h.fecRedundancy, fun j => ?_, nofun⟩
    show Fec.Blocks x.config.blockSize (stripes * redundancy)
      ((x.modify i fun s => { s with fecData := fecData }).slices j).fecData
    by_cases hj : j = i
    · subst hj
      rw [modify_slices_self]
      exact hfec
    · rw [modify_slices_of_ne _ _ _ hj]
      exact h.blocks j
  | @transmit i ds _ _ _ =>
    refine h.congr hresized fun j => ⟨?_, nofun⟩
    show ((requested (transmitted x i ds) i).slices j).fecData = _
    by_cases hj : j = i
    · subst hj
      rw [requested_slices_self, transmitted_slices_self]
      rfl
    · rw [requested_slices_of_ne _ hj, transmitted_slices_of_ne _ _ hj]
  | @transmitAsync i ds c q _ _ _ _ _ =>
    exact h.congr hresized fun j => ⟨released_fecData (x.send ds) i j c q, nofun⟩
  | @timeout i rest rxmitId _ _ =>
    exact h.congr hresized fun j =>
      ⟨(sameSlice_requested { x with db := afterDrop x i } i j rxmitId).fecData, nofun⟩
  | allDropped _ _ => exact h.congr hresized fun j => ⟨rfl, nofun⟩
  | readerWait _ hw =>
    rcases readerWait_frame hw with rfl | ⟨_, _, rfl⟩
    · exact h.congr hresized fun j => ⟨rfl, fun hp => ⟨hp, rfl⟩⟩
    · exact h.congr hresized fun j => ⟨rfl, fun hp => ⟨hp, rfl⟩⟩
  | readEnd _ => exact h.congr hresized fun j => ⟨rfl, fun hp => ⟨hp, rfl⟩⟩
  | read _ _ => exact h.congr hresized fun j => ⟨rfl, fun hp => ⟨hp, rfl⟩⟩
  | readerConsumed _ _ => exact h.congr hresized fun j => ⟨rfl, fun hp => ⟨hp, rfl⟩⟩
  | readerWrite _ hw => exact h.congr hresized fun j => ⟨rfl, fun hp => ⟨hp, rfl⟩⟩
  | readerProduced _ _ => exact h.congr hresized fun j => ⟨rfl, fun hp => ⟨hp, rfl⟩⟩

end HasParity

end HasParity

theorem hasParity_start {config : NetConfig} {db : ParticipantsDb} {x : Sender}
    (hfec : config.hasFlag flagFec = true) (h : Sender.start config db = some x) :
    HasParity config.fecStripes config.fecRedundancy x := by
  obtain ⟨_, _, _, hconfig⟩ := start_config h
  have hsize : x.config.blockSize = config.blockSize := start_blockSize h
  refine ⟨by rw [hconfig], by rw [hconfig], ?_, ?_⟩
  · rw [hsize]
    simp only [Sender.start, Option.bind_eq_bind, Option.bind_eq_some_iff] at h
    obtain ⟨fifo, -, nrFec, hnr, c₁, h₁, c₂, h₂, h⟩ := h
    have hc₂ : c₂.blockSize = config.blockSize := by
      obtain rfl := Option.some.inj h
      have hlimit : c₂.limitSliceSize.blockSize = c₂.blockSize := by
        rw [NetConfig.limitSliceSize]
        split
        · rfl
        · rfl
      rw [← hlimit]
      exact hsize
    rw [NetConfig.nrFec, if_pos hfec] at hnr
    obtain ⟨_, -, rfl⟩ := Option.map_eq_some_iff.mp hnr
    obtain rfl := Option.some.inj h
    intro i
    show Fec.Blocks config.blockSize _ (List.replicate _ (List.replicate c₂.blockSize 0))
    rw [hc₂]
    exact ⟨List.length_replicate, fun b hb => by
      rw [List.eq_of_mem_replicate hb, List.length_replicate]⟩
  · simp only [Sender.start, Option.bind_eq_bind, Option.bind_eq_some_iff] at h
    obtain ⟨fifo, -, nrFec, -, c₁, -, c₂, -, h⟩ := h
    obtain rfl := Option.some.inj h
    intro j hj
    cases hj

/-- With parity blocks a slice never has more than 128 blocks for each stripe. -/
theorem sizes_start_fec {config : NetConfig} {db : ParticipantsDb} {x : Sender}
    (hfec : config.hasFlag flagFec = true) (h : Sender.start config db = some x) :
    Sizes 0 (128 * config.fecStripes) x := by
  obtain ⟨hmax, size, hsize, -⟩ := start_sizes h
  rw [NetConfig.capped, if_pos hfec] at hmax
  have hle : x.config.maxSliceSize ≤ 128 * config.fecStripes := by
    rw [hmax]
    exact Nat.min_le_right _ _
  refine ⟨⟨Nat.zero_le _, Or.inl hle, ?_, Nat.zero_le _, ?_⟩, ?_⟩
  · rcases Nat.eq_zero_or_pos config.fecStripes with hzero | hpos
    · rw [hzero]
      exact Or.inr (Or.inl (by decide))
    · exact Or.inr (Or.inr ⟨Nat.zero_le _, by omega⟩)
  · rw [hsize]
    exact (Nat.min_le_right _ _).trans hle
  · intro n hn
    rw [start_cuts h] at hn
    cases hn

/-! ### What the command line accepts -/

/-- What a slice that is about to be encoded needs: its buffer, at most 128 blocks of either kind for
each stripe, a run of `fec_encode_slice` without a failed check, regions that are disjoint and
cover the buffer, and numbers that the receiver reads as stripe and row. -/
structure ParityFits (x : Sender) (idx : Fin 8) : Prop where
  length_eq : (x.slices idx).fecData.flatten.length
    = x.config.fecStripes * x.config.fecRedundancy * x.config.blockSize
  stripe_le : ∀ stripe < x.config.fecStripes,
    (stripeIndices (x.config.nrBlocks (x.slices idx).bytes) x.config.fecStripes stripe).length ≤ 128 ∧
      (fecOffsets x.config (x.slices idx).fecData.flatten.length stripe).length ≤ 128
  encodes : (encodeSliceBytes x (x.slices idx)).isSome = true
  disjoint : ∀ stripe < x.config.fecStripes, ∀ stripe' < x.config.fecStripes,
    ∀ r < x.config.fecRedundancy, ∀ r' < x.config.fecRedundancy, (stripe, r) ≠ (stripe', r') →
      let p := fecRegion x.config (x.slices idx).fecData.flatten.length stripe r
      let p' := fecRegion x.config (x.slices idx).fecData.flatten.length stripe' r'
      Disjoint (Set.Ico p.1 p.2) (Set.Ico p'.1 p'.2)
  covers : ∀ i < (x.slices idx).fecData.flatten.length,
    ∃ stripe < x.config.fecStripes, ∃ r < x.config.fecRedundancy,
      let p := fecRegion x.config (x.slices idx).fecData.flatten.length stripe r
      i ∈ Set.Ico p.1 p.2
  numbers : ∀ stripe < x.config.fecStripes, ∀ r < x.config.fecRedundancy,
    let no := asU16 (stripe + r * x.config.fecStripes)
    let stripes := asI16 (asI32 x.config.fecStripes)
    no = stripe + r * x.config.fecStripes ∧ stripes = x.config.fecStripes ∧
      no % stripes.toNat = stripe ∧ no / stripes.toNat = r

section ParityFits

variable {x : Sender} {idx : Fin 8}

theorem asU16_lt (n : ℕ) : asU16 n < 65536 := by
  unfold asU16
  exact Nat.mod_lt n (by norm_num)

theorem asI16_lt (n : ℤ) : asI16 n < 32768 := by
  have hlt := Int.bmod_lt (x := n) (m := 2 ^ 16) (by norm_num)
  unfold asI16
  omega

theorem div_of_mem_block {size no i : ℕ} (hi : i ∈ Set.Ico (no * size) (no * size + size)) :
    i / size = no := by
  obtain ⟨hle, hlt⟩ := hi
  apply Nat.div_eq_of_lt_le hle
  rwa [Nat.add_mul, Nat.one_mul]

theorem parityNo_mod_div {stripes stripe : ℕ} (hlt : stripe < stripes) (r : ℕ) :
    (stripe + r * stripes) % stripes = stripe ∧ (stripe + r * stripes) / stripes = r := by
  constructor
  · rw [Nat.add_mul_mod_self_right, Nat.mod_eq_of_lt hlt]
  · rw [Nat.add_mul_div_right _ _ (by omega), Nat.div_eq_of_lt hlt, Nat.zero_add]

theorem last_parityNo {stripes redundancy : ℕ} (hs : 0 < stripes) (hr : 0 < redundancy) :
    stripes - 1 + (redundancy - 1) * stripes + 1 = stripes * redundancy := by
  obtain ⟨n, rfl⟩ := Nat.exists_eq_add_of_le' hr
  rw [Nat.add_sub_cancel, Nat.mul_comm stripes, Nat.add_mul]
  omega

theorem length_stripeIndices_le {blocks stripes stripe : ℕ} (hlt : stripe < stripes)
    (hle : blocks ≤ 128 * stripes) : (stripeIndices blocks stripes stripe).length ≤ 128 := by
  rw [length_stripeIndices, ← Nat.lt_succ_iff, Nat.div_lt_iff_lt_mul (by omega)]
  omega

theorem isSome_fecBlock {slice : Slice} (hring : x.fifo.dataBufSize = x.config.blockSize * 4096)
    (i : ℕ) : (fecBlock x slice i).isSome = true := by
  have hpos := x.config.blockSize_pos
  unfold fecBlock
  dsimp only
  split
  · rfl
  · rw [Fifo.readAt_eq (by omega) (by omega)]
    rfl

theorem isSome_encodeSliceBytes
    (h : HasParity x.config.fecStripes x.config.fecRedundancy x)
    (hring : x.fifo.dataBufSize = x.config.blockSize * 4096)
    (hblocks : x.config.nrBlocks (x.slices idx).bytes ≤ 128 * x.config.fecStripes)
    (hred : x.config.fecRedundancy ≤ 128) :
    (encodeSliceBytes x (x.slices idx)).isSome = true := by
  have hlt : ∀ stripe ∈ List.range x.config.fecStripes, stripe < x.config.fecStripes :=
    fun _ hmem => List.mem_range.mp hmem
  obtain ⟨fecData, hfold, -⟩ := Fold.foldlM_exists
    (P := Fec.Blocks x.config.blockSize (x.config.fecStripes * x.config.fecRedundancy))
    (g := encodeStripe x (x.slices idx)) (l := List.range x.config.fecStripes)
    (fun stripe hmem fecData hfec => by
      obtain ⟨fecData', hstep⟩ : ∃ fecData', encodeStripe x (x.slices idx) fecData stripe
          = some fecData' := encodeStripe_isSome hfec (hlt stripe hmem) hred (length_stripeIndices_le (hlt stripe hmem) hblocks) fun i _ => isSome_fecBlock hring i
      exact ⟨fecData', hstep, blocks_encodeStripe hfec (hlt stripe hmem) hstep⟩) (h.blocks idx)
  rw [encodeSliceBytes, foldlM_encodeStripeBytes (h.blocks idx) _ hlt, hfold]
  rfl

theorem parityFits_iff (h : HasParity x.config.fecStripes x.config.fecRedundancy x)
    (hring : x.fifo.dataBufSize = x.config.blockSize * 4096)
    (hblocks : x.config.nrBlocks (x.slices idx).bytes ≤ 128 * x.config.fecStripes)
    (hphase : x.phase = .encoding idx) :
    ParityFits x idx ↔ x.config.fecRedundancy ≤ 128 ∧ (x.config.fecRedundancy = 0 ∨
      x.config.fecStripes * x.config.fecRedundancy ≤ 65536 ∧ x.config.fecStripes < 32768) := by
  have hfec := h.blocks idx
  have hlength : (x.slices idx).fecData.flatten.length
      = x.config.fecStripes * x.config.fecRedundancy * x.config.blockSize := by
    rw [Region.length_flatten hfec.size, hfec.length]
  -- a slice with data has a block, and so a stripe
  have hstripes : 0 < x.config.fecStripes := by
    have hbytes := h.bytes_pos idx hphase
    have hzero : 0 < x.config.nrBlocks (x.slices idx).bytes := by
      have hpos := x.config.blockSize_pos
      exact Nat.div_pos (by omega) hpos
    omega
  constructor
  · intro hfits
    have hred : x.config.fecRedundancy ≤ 128 := by
      have hle := (hfits.stripe_le 0 hstripes).2
      rwa [fecOffsets, List.length_map, List.length_range] at hle
    refine ⟨hred, ?_⟩
    rcases Nat.eq_zero_or_pos x.config.fecRedundancy with hzero | hpos
    · exact Or.inl hzero
    · right
      obtain ⟨hno, hfield, -⟩ := hfits.numbers (x.config.fecStripes - 1) (by omega)
        (x.config.fecRedundancy - 1) (by omega)
      constructor
      · have hmod := asU16_lt (x.config.fecStripes - 1 +
          (x.config.fecRedundancy - 1) * x.config.fecStripes)
        rw [hno] at hmod
        rw [← last_parityNo hstripes hpos]
        exact hmod
      · have hlt := asI16_lt (asI32 x.config.fecStripes)
        rw [hfield] at hlt
        exact Int.ofNat_lt.mp hlt
  · rintro ⟨hred, hcase⟩
    have hregion := fun stripe (hlt : stripe < x.config.fecStripes) r
      (hr : r < x.config.fecRedundancy) => fecRegion_eq hfec hlt hr
    refine ⟨hlength, fun stripe hlt => ?_, isSome_encodeSliceBytes h hring hblocks hred,
      fun stripe hlt stripe' hlt' r hr r' hr' hne => ?_, fun i hi => ?_, fun stripe hlt r hr => ?_⟩
    · refine ⟨length_stripeIndices_le hlt hblocks, ?_⟩
      rw [fecOffsets, List.length_map, List.length_range]
      exact hred
    · dsimp only
      rw [hregion stripe hlt r hr, hregion stripe' hlt' r' hr', Set.disjoint_left]
      intro i hi hi'
      have hno := (div_of_mem_block hi).symm.trans (div_of_mem_block hi')
      obtain ⟨hmod, hdiv⟩ := parityNo_mod_div hlt r
      obtain ⟨hmod', hdiv'⟩ := parityNo_mod_div hlt' r'
      rw [hno] at hmod hdiv
      exact hne (Prod.ext (hmod.symm.trans hmod') (hdiv.symm.trans hdiv'))
    · rw [hlength] at hi
      have hno : i / x.config.blockSize < x.config.fecStripes * x.config.fecRedundancy :=
        Nat.div_lt_of_lt_mul (by rwa [Nat.mul_comm])
      generalize hnoEq : i / x.config.blockSize = no at hno
      have hlt := Nat.mod_lt no hstripes
      have hr : no / x.config.fecStripes < x.config.fecRedundancy := Nat.div_lt_of_lt_mul hno
      refine ⟨no % x.config.fecStripes, hlt, no / x.config.fecStripes, hr, ?_⟩
      dsimp only
      rw [hregion _ hlt _ hr, Nat.mod_add_div', ← hnoEq]
      have hdiv := Nat.div_add_mod' i x.config.blockSize
      have hrest := Nat.mod_lt i x.config.blockSize_pos
      constructor
      · omega
      · omega
    · rcases hcase with hzero | ⟨hnos, hfield⟩
      · omega
      · have hno : stripe + r * x.config.fecStripes < x.config.fecStripes * x.config.fecRedundancy :=
          Buffer.stride_lt hlt hr
        have hwire : asI16 (asI32 x.config.fecStripes) = x.config.fecStripes := by
          rw [asI16_asI32, Int.bmod_eq_of_le_mul_two (by omega) (by omega)]
        dsimp only
        rw [hwire, Int.toNat_natCast, asU16_of_lt (by omega)]
        exact ⟨rfl, rfl, parityNo_mod_div hlt r⟩

end ParityFits

theorem Cli.flags_fec {cli : Cli} (h : cli.fec.isSome = true) : cli.flags &&& flagFec ≠ 0 := by
  have habsorb : ∀ n, (n ||| flagFec) &&& flagFec = flagFec := by
    intro n
    apply Nat.eq_of_testBit_eq
    intro i
    rw [Nat.testBit_and, Nat.testBit_or, Bool.and_comm, Bool.and_or_distrib_left, Bool.and_self]
    cases (flagFec.testBit i) with
    | true => rw [Bool.or_true]
    | false => rw [Bool.false_and, Bool.or_false]
  unfold Cli.flags
  dsimp only
  rw [if_pos h, habsorb]
  decide

theorem start_isSome {config : NetConfig} (hfec : config.hasFlag flagFec = true)
    (db : ParticipantsDb) : (Sender.start config db).isSome = true ↔
      config.fecStripes * config.fecRedundancy * config.blockSize < 2 ^ 32 ∧
      128 * config.fecStripes < 2 ^ 32 ∧
      (config.defaultSliceSize = 0 → config.fecStripesize * config.fecStripes < 2 ^ 32) := by
  have hcheck : ∀ n, (checkU32 n).isSome = true ↔ n < 2 ^ 32 := by
    intro n
    unfold checkU32
    split
    · rename_i hlt
      exact ⟨fun _ => hlt, fun _ => rfl⟩
    · rename_i hlt
      exact ⟨nofun, fun h => absurd h hlt⟩
  have hnr : config.nrFec.isSome = true
      ↔ config.fecStripes * config.fecRedundancy * config.blockSize < 2 ^ 32 := by
    rw [NetConfig.nrFec, if_pos hfec, Option.isSome_map, hcheck]
  have hfirst : config.firstSliceSize.isSome = true ↔ (config.defaultSliceSize = 0 →
      config.fecStripesize * config.fecStripes < 2 ^ 32) := by
    rw [NetConfig.firstSliceSize]
    split
    · rename_i hnone
      rw [Option.isSome_map, NetConfig.autoSliceSize, if_pos hfec, hcheck]
      exact ⟨fun h _ => h, fun h => h hnone⟩
    · rename_i hsome
      exact ⟨fun _ h => absurd h hsome, fun _ => rfl⟩
  have hlimit : ∀ c, config.firstSliceSize = some c →
      (c.limitFec.isSome = true ↔ 128 * config.fecStripes < 2 ^ 32) := by
    intro c hc
    have hsame : c.flags = config.flags ∧ c.fecStripes = config.fecStripes := by
      rw [NetConfig.firstSliceSize] at hc
      split at hc
      · obtain ⟨_, -, rfl⟩ := Option.map_eq_some_iff.mp hc
        exact ⟨rfl, rfl⟩
      · obtain rfl := Option.some.inj hc
        exact ⟨rfl, rfl⟩
    rw [NetConfig.limitFec, if_pos ((hasFlag_congr hsame.1 flagFec).trans hfec), Option.isSome_map,
      hcheck, hsame.2]
  rw [← hnr, ← hfirst]
  unfold Sender.start
  rw [Fifo.new_eq config.blockSize_pos]
  cases hn : config.nrFec with
  | none => simp
  | some n =>
    cases hc : config.firstSliceSize with
    | none => simp
    | some c =>
      rw [← hlimit c hc]
      cases hl : c.limitFec with
      | none => simp [hl]
      | some c' => simp [hl]

/-- A specification that is accepted can be encoded when its numbers fit: the products at the start,
the rows of the coder, and the fields of a FEC packet. -/
theorem fec_slices_fit (cli : Cli) (config : NetConfig) (db : ParticipantsDb) (spec : List Char)
    (stripes redundancy stripesize : ℕ) (hspec : cli.fec = some spec)
    (hparse : parseFecSpec spec = some (stripes, redundancy, stripesize))
    (hrun : runSender cli = some config) :
    ((Sender.start config db).isSome = true ↔
      stripes * redundancy * config.blockSize < 2 ^ 32 ∧ 128 * stripes < 2 ^ 32 ∧
        (config.defaultSliceSize = 0 → stripesize * stripes < 2 ^ 32)) ∧
    ∀ x₀ x idx, Sender.start config db = some x₀ → Run.Reach step (fun _ _ => True) x₀ x →
      x.phase = .encoding idx →
      (ParityFits x idx ↔
        redundancy ≤ 128 ∧ (redundancy = 0 ∨ stripes * redundancy ≤ 65536 ∧ stripes < 32768)) := by
  have hconfig : config.fecStripes = stripes ∧ config.fecRedundancy = redundancy ∧
      config.fecStripesize = stripesize ∧ config.hasFlag flagFec = true := by
    rw [runSender, Cli.fecSpec, hspec] at hrun
    dsimp only at hrun
    rw [hparse] at hrun
    simp only [Option.bind_eq_bind, Option.bind_some] at hrun
    split at hrun
    · obtain rfl := Option.some.inj hrun
      refine ⟨rfl, rfl, rfl, ?_⟩
      exact decide_eq_true (Cli.flags_fec (by rw [hspec]; rfl))
    · cases hrun
  obtain ⟨hstripes, hred, hsize, hfec⟩ := hconfig
  constructor
  · have hstart := start_isSome hfec db
    rwa [hstripes, hred, hsize] at hstart
  · intro x₀ x idx hstart hreach hphase
    obtain ⟨hparity, hsizes, hsound⟩ := hreach.invariant
      (I := fun x => HasParity config.fecStripes config.fecRedundancy x ∧
        Sizes 0 (128 * config.fecStripes) x ∧ Sound x)
      ⟨hasParity_start hfec hstart, sizes_start_fec hfec hstart, sound_start hstart⟩ (by
        intro s a s' hs _ hstep
        have hstep' := step_cases hstep
        exact ⟨hs.1.step hs.2.2.control hstep', hs.2.1.step hs.2.2.control hs.2.2.cut hstep',
          hs.2.2.step hstep'⟩)
    have hring : x.fifo.dataBufSize = x.config.blockSize * 4096 := by
      obtain ⟨_, _, _, _, hqueues⟩ := hsound.queues
      exact hqueues.size
    have hblocks : x.config.nrBlocks (x.slices idx).bytes ≤ 128 * config.fecStripes := by
      have hnew := hsound.control.fresh idx (Or.inl hphase)
      obtain ⟨h0, hlt, hb, -⟩ := hsound.cut.slot idx (Or.inl hnew)
      have hbytes : (x.slices idx).bytes ≤ x.config.blockSize * (128 * config.fecStripes) := by
        rw [hb, List.getD_eq_getElem _ _ (by omega)]
        exact hsizes.cuts _ (List.getElem_mem _)
      have hpos := x.config.blockSize_pos
      rw [NetConfig.nrBlocks, ← Nat.lt_succ_iff, Nat.div_lt_iff_lt_mul hpos, Nat.succ_mul,
        Nat.mul_comm]
      omega
    have hiff : ParityFits x idx ↔ _ := parityFits_iff
      (by rw [hparity.fecStripes, hparity.fecRedundancy]; exact hparity) hring
      (by rw [hparity.fecStripes]; exact hblocks) hphase
    rwa [hparity.fecStripes, hparity.fecRedundancy, hstripes, hred] at hiff

/-- The reader reads one byte and the end of the input, and a slice is formed. -/
def formOne : List Action :=
  readBytes [7] ++ [.readerWait, .read []] ++ List.replicate 5 .advance

/-- A run from the command line that ends in a state with the property `p`. -/
theorem exists_run (cli : Cli) (db : ParticipantsDb) (l : List Action) (p : Sender → Bool)
    (h : (((runSender cli).bind (Sender.start · db)).bind
      (Run.exec step (fun _ _ => True) · l)).map p = some true) :
    ∃ config x₀ x, runSender cli = some config ∧ Sender.start config db = some x₀ ∧
      Run.Reach step (fun _ _ => True) x₀ x ∧ p x = true := by
  obtain ⟨x, hx, hp⟩ := Option.map_eq_some_iff.mp h
  obtain ⟨x₀, hx₀, hx⟩ := Option.bind_eq_some_iff.mp hx
  obtain ⟨config, hrun, hstart⟩ := Option.bind_eq_some_iff.mp hx₀
  exact ⟨config, x₀, x, hrun, hstart, Run.reach_of_exec hx, hp⟩

/-- Four stripes with two parity blocks each. -/
theorem fec_slices_fit_four : ∃ x : Sender, x.phase = .encoding 0 ∧ ParityFits x 0 := by
  obtain ⟨config, x₀, x, hrun, hstart, hreach, hphase⟩ := exists_run
    { defaultCli with fec := some ['4', 'x', '2', '/', '6', '4'] } twoParticipants formOne
    (fun x => decide (x.phase = .encoding 0)) (by decide +kernel)
  have hphase := of_decide_eq_true hphase
  refine ⟨x, hphase, ?_⟩
  exact ((fec_slices_fit { defaultCli with fec := some ['4', 'x', '2', '/', '6', '4'] } config
    twoParticipants ['4', 'x', '2', '/', '6', '4'] 4 2 64 rfl (by decide) hrun).2 x₀ x 0 hstart
    hreach hphase).mpr ⟨by decide, Or.inr ⟨by decide, by decide⟩⟩

/-- `--fec 8x129` is accepted, and the first slice with data cannot be encoded. -/
theorem fec_slices_rows_unfit : ∃ config x₀ x,
    runSender { defaultCli with fec := some ['8', 'x', '1', '2', '9'] } = some config ∧
    Sender.start config twoParticipants = some x₀ ∧ Run.Reach step (fun _ _ => True) x₀ x ∧
    x.phase = .encoding 0 ∧ step x .advance = none ∧ ¬ParityFits x 0 := by
  obtain ⟨config, x₀, x, hrun, hstart, hreach, hphase⟩ := exists_run
    { defaultCli with fec := some ['8', 'x', '1', '2', '9'] } twoParticipants formOne
    (fun x => decide (x.phase = .encoding 0 ∧ (step x .advance).isNone = true ∧
      x.config.fecStripes = 8 ∧ x.config.fecRedundancy = 129)) (by decide +kernel)
  obtain ⟨hphase, hnone, hstripes, hred⟩ := of_decide_eq_true hphase
  refine ⟨config, x₀, x, hrun, hstart, hreach, hphase, Option.isNone_iff_eq_none.mp hnone,
    fun hfits => ?_⟩
  have hle := (hfits.stripe_le 0 (by rw [hstripes]; decide)).2
  rw [fecOffsets, List.length_map, List.length_range, hred] at hle
  exact absurd hle (by decide)

end Udpcast.SendData
