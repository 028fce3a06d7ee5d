import Udpcast.SendData.Intact

/-!
# The packets of a slice

With the bytes of a slice in the ring, `fec_encode_slice` computes the parity blocks of its stripes,
and the packets of the first transmission carry its blocks and parity blocks.
-/

namespace Udpcast.SendData

open Sender

theorem bmod_natCast {n m : ℕ} (h : n * 2 < m) : Int.bmod n m = n :=
  Int.bmod_eq_of_le_mul_two (by omega) (by omega)

theorem asI32_natCast {n : ℕ} (h : n < 2 ^ 31) : asI32 n = n := by
  have hm : n * 2 < 2 ^ 32 := by omega
  exact bmod_natCast hm

theorem asI16_asI32 (n : ℕ) : asI16 (asI32 n) = Int.bmod n (2 ^ 16) :=
  Int.bmod_bmod_of_dvd (Nat.pow_dvd_pow 2 (by omega))

theorem asU16_of_lt {n : ℕ} (h : n < 2 ^ 16) : asU16 n = n := by
  rw [asU16, Nat.mod_eq_of_lt h]

/-- The number of stripes by which the receiver counts: a field that is not positive is ignored. -/
def wireStripes (stripes : ℕ) : ℕ := (asI16 (asI32 stripes)).toNat

theorem wireStripes_of_lt {stripes : ℕ} (h : stripes < 2 ^ 15) : wireStripes stripes = stripes := by
  rw [wireStripes, asI16_asI32, Int.bmod_eq_of_le_mul_two (by omega) (by omega), Int.toNat_natCast]

theorem wireStripes_lt (stripes : ℕ) : wireStripes stripes < 2 ^ 15 := by
  have hlt := Int.bmod_lt (x := stripes) (m := 2 ^ 16) (by omega)
  rw [wireStripes, asI16_asI32]
  omega

/-- The numbers that become negative, or 0. -/
theorem wireStripes_eq_zero {stripes : ℕ} (h : 2 ^ 15 ≤ stripes) (h' : stripes ≤ 2 ^ 16) :
    wireStripes stripes = 0 := by
  rw [wireStripes, asI16_asI32, Int.bmod_def]
  split
  · omega
  · omega

/-- With parity blocks whose numbers fit, the field is ignored or right. -/
theorem wireStripes_eq {stripes redundancy : ℕ} (hred : 0 < redundancy)
    (hnos : stripes * redundancy ≤ 65536) (hwire : 0 < wireStripes stripes) :
    wireStripes stripes = stripes := by
  have hle : stripes ≤ stripes * redundancy := Nat.le_mul_of_pos_right _ hred
  refine wireStripes_of_lt ?_
  by_contra hlarge
  exact hwire.ne' (wireStripes_eq_zero (by omega) (by omega))

/-- Slice `s` is in slot `idx`, with its bytes in the ring, and `fec_data` has room for the parity
blocks. -/
structure Formed (t : Transfer) (stripes redundancy : ℕ) (s : ℤ) (idx : Fin 8) (x : Sender) :
    Prop where
  blockSize : x.config.blockSize = t.blockSize
  fecFlag : x.config.hasFlag flagFec = true
  fecStripes : x.config.fecStripes = stripes
  fecRedundancy : x.config.fecRedundancy = redundancy
  ringSize : x.fifo.dataBufSize = x.config.blockSize * 4096
  sliceNo : (x.slices idx).sliceNo = s
  bytes : (x.slices idx).bytes = t.size s
  size_pos : 0 < t.size s
  content : Ring.window x.fifo.dataBufSize (x.slices idx).base (t.size s) x.fifo.buffer
    = t.content s
  fecData : Fec.Blocks t.blockSize (stripes * redundancy) (x.slices idx).fecData

/-- The parity blocks of some of the stripes have been computed; a stripe without data blocks
leaves what was there. -/
structure Encoded (t : Transfer) (stripes redundancy : ℕ) (s : ℤ) (old : List (List UInt8))
    (done : List ℕ) (fecData : List (List UInt8)) : Prop where
  blocks : Fec.Blocks t.blockSize (stripes * redundancy) fecData
  parity : ∀ no < stripes * redundancy, no % stripes ∈ done →
    stripeOf t.blockSize stripes (t.content s) (no % stripes) ≠ [] → ∀ i < t.blockSize,
      Fec.byteAt fecData no i
        = Fec.parityByte (stripeOf t.blockSize stripes (t.content s) (no % stripes)) (no / stripes) i
  kept : ∀ no < stripes * redundancy,
    stripeOf t.blockSize stripes (t.content s) (no % stripes) = [] →
      fecData.getD no [] = old.getD no []

/-- The packets of the first transmission of slice `s`: its blocks and the parity blocks. -/
def firstPackets (t : Transfer) (stripes redundancy : ℕ) (s : ℤ) (fecData : List (List UInt8)) :
    List Datagram :=
  (List.range (blocksIn t.blockSize (t.size s))).map
      (fun k => .data ⟨s, k, t.size s⟩ (blockOf t.blockSize (t.content s) k)) ++
    (List.range (stripes * redundancy)).map
      (fun no => .fec ⟨asI16 (asI32 stripes), s, asU16 no, t.size s⟩ (fecData.getD no []))

section Formed

variable {t : Transfer} {stripes redundancy : ℕ} {s : ℤ} {idx : Fin 8} {x : Sender}

theorem fec_mem_firstPackets {fecData : List (List UInt8)} {no : ℕ} (hno : no < stripes * redundancy) :
    .fec ⟨asI16 (asI32 stripes), s, asU16 no, t.size s⟩ (fecData.getD no [])
      ∈ firstPackets t stripes redundancy s fecData :=
  List.mem_append_right _ (List.mem_map.mpr ⟨no, List.mem_range.mpr hno, rfl⟩)

namespace Formed

theorem isSlice (h : Formed t stripes redundancy s idx x) : t.IsSlice s (t.size s) := by
  have hpos := h.size_pos
  have hs : 0 ≤ s := by
    by_contra hneg
    rw [Transfer.size, if_neg hneg] at hpos
    exact Nat.lt_irrefl _ hpos
  exact ⟨hs, ((t.size_pos_iff hs).mp hpos).le, rfl⟩

theorem length_content (h : Formed t stripes redundancy s idx x) :
    (t.content s).length = t.size s := Transfer.length_content h.isSlice.1

theorem nrBlocks (h : Formed t stripes redundancy s idx x) :
    x.config.nrBlocks (x.slices idx).bytes = blocksIn t.blockSize (t.size s) := by
  rw [NetConfig.nrBlocks, h.blockSize, h.bytes, blocksIn]

theorem size_le (h : Formed t stripes redundancy s idx x) :
    t.size s ≤ 1024 * t.blockSize ∧ x.fifo.dataBufSize = t.blockSize * 4096 ∧ 0 < t.blockSize :=
  ⟨t.size_le s, by rw [h.ringSize, h.blockSize], t.blockSize_pos⟩

theorem size_lt (h : Formed t stripes redundancy s idx x) : t.size s < 2 ^ 31 := by
  have hle := h.size_le.1
  have hlt := t.blockSize_lt
  simp only [maxSliceSize] at hlt
  omega

theorem fecBlock (h : Formed t stripes redundancy s idx x) {k : ℕ}
    (hk : k * t.blockSize < t.size s) :
    SendData.fecBlock x (x.slices idx) k = some (paddedBlock t.blockSize (t.content s) k) := by
  obtain ⟨hsize, hN, hpos⟩ := h.size_le
  have hwindow := window_block (N := x.fifo.dataBufSize) (b := (x.slices idx).base) hk
    x.fifo.buffer
  rw [h.content] at hwindow
  have hlen := length_blockOf t.blockSize (t.content s) k
  rw [h.length_content] at hlen
  have hlast := shorter_iff_last hpos hk
  simp only [SendData.fecBlock, h.nrBlocks]
  rw [h.bytes, h.blockSize]
  split
  · rename_i hshort
    have hless := hlast.mpr hshort
    rw [Ring.window_mod, paddedBlock, hlen, mod_of_shorter hk hless, ← hwindow, Nat.min_eq_right hless.le]
  · rename_i hwhole
    have hfull : t.blockSize ≤ t.size s - k * t.blockSize :=
      Nat.le_of_not_lt fun hless => hwhole (hlast.mp hless)
    rw [Fifo.readAt_eq (by omega) (by omega), paddedBlock_of_full (by rw [h.length_content]; omega),
      ← hwindow, Nat.min_eq_left hfull]

/-! ### The parity blocks -/

theorem encodeStripe (h : Formed t stripes redundancy s idx x) {stripe : ℕ} (hlt : stripe < stripes)
    (hred : redundancy ≤ 128)
    (hle : (stripeOf t.blockSize stripes (t.content s) stripe).length ≤ 128) {done : List ℕ}
    {old fecData : List (List UInt8)} (hfec : Encoded t stripes redundancy s old done fecData) :
    ∃ fecData', SendData.encodeStripe x (x.slices idx) fecData stripe = some fecData' ∧
      Encoded t stripes redundancy s old (done ++ [stripe]) fecData' := by
  have hdata : (stripeIndices (x.config.nrBlocks (x.slices idx).bytes) x.config.fecStripes stripe).mapM
      (SendData.fecBlock x (x.slices idx))
        = some (stripeOf t.blockSize stripes (t.content s) stripe) := by
    rw [h.nrBlocks, h.fecStripes, stripeOf, h.length_content]
    refine Buffer.mapM_eq_some fun k hk => h.fecBlock ?_
    exact (lt_blocksIn t.blockSize_pos).mp (mem_stripeIndices (by omega) hk).1
  rw [SendData.encodeStripe, hdata]
  simp only [Option.bind_eq_bind, Option.bind_some]
  rw [h.fecRedundancy, h.fecStripes, h.blockSize]
  split
  · rename_i hnone
    refine ⟨fecData, rfl, hfec.blocks, fun no hno hmem hne => ?_, hfec.kept⟩
    rcases List.mem_append.mp hmem with hmem | hmem
    · exact hfec.parity no hno hmem hne
    · -- a stripe without blocks, or no parity blocks at all
      rcases hnone with hnone | hnone
      · rw [List.mem_singleton.mp hmem] at hne
        exact absurd hnone hne
      · rw [List.map_eq_nil_iff, List.range_eq_nil] at hnone
        rw [hnone, Nat.mul_zero] at hno
        omega
  · rename_i hsome
    rw [not_or] at hsome
    have hold : ((List.range redundancy).map fun r => stripe + r * stripes).mapM (fecData[·]?)
        = some (((List.range redundancy).map fun r => stripe + r * stripes).map (fecData.getD · [])) := by
      refine Buffer.mapM_eq_some fun no hno => ?_
      obtain ⟨r, hr, rfl⟩ := List.mem_map.mp hno
      exact hfec.blocks.getElem? (Buffer.stride_lt hlt (List.mem_range.mp hr))
    have hparity : Fec.Blocks t.blockSize redundancy
        (((List.range redundancy).map fun r => stripe + r * stripes).map (fecData.getD · [])) :=
      ⟨by rw [List.length_map, List.length_map, List.length_range], fun b hb => by
        obtain ⟨no, hno, rfl⟩ := List.mem_map.mp hb
        obtain ⟨r, hr, rfl⟩ := List.mem_map.mp hno
        exact hfec.blocks.getD (Buffer.stride_lt hlt (List.mem_range.mp hr))⟩
    obtain ⟨parity, hencode, hblocks, hbyte⟩ := Fec.fecEncode_spec hsome.1 hle hred
      (blocks_stripeOf ..) hparity
    rw [hold, Option.bind_some, hencode, Option.bind_some]
    have hcell : ∀ no < stripes * redundancy, _ := fun no hno =>
      Buffer.getD_stride [] hlt hblocks.length hfec.blocks.length hno
    have hrow : ∀ no < stripes * redundancy, no / stripes < redundancy := fun no hno =>
      Nat.div_lt_of_lt_mul hno
    refine ⟨_, rfl, ⟨by rw [Buffer.length_foldl_set, hfec.blocks.length], fun b hb => ?_⟩,
      fun no hno hin hne i hi => ?_, fun no hno hnone => ?_⟩
    · obtain ⟨no, hno, rfl⟩ := List.mem_iff_getElem.mp hb
      rw [Buffer.length_foldl_set, hfec.blocks.length] at hno
      rw [← List.getD_eq_getElem _ [], hcell no hno]
      split
      · exact hblocks.getD (hrow no hno)
      · exact hfec.blocks.getD hno
    · rw [Fec.byteAt, hcell no hno]
      split
      · rename_i hmod
        rw [hmod]
        exact hbyte _ (hrow no hno) i hi
      · rename_i hmod
        refine hfec.parity no hno ((List.mem_append.mp hin).resolve_right fun hh => ?_) hne i hi
        exact hmod (List.mem_singleton.mp hh)
    · rw [hcell no hno, if_neg fun hmod => hsome.1 (by rwa [hmod] at hnone)]
      exact hfec.kept no hno hnone

theorem encodeStripes (h : Formed t stripes redundancy s idx x) (hred : redundancy ≤ 128)
    (hle : ∀ stripe < stripes, (stripeOf t.blockSize stripes (t.content s) stripe).length ≤ 128)
    (l : List ℕ) (hl : ∀ stripe ∈ l, stripe < stripes) {done : List ℕ}
    {old fecData : List (List UInt8)} (hfec : Encoded t stripes redundancy s old done fecData) :
    ∃ fecData', l.foldlM (SendData.encodeStripe x (x.slices idx)) fecData = some fecData' ∧
      Encoded t stripes redundancy s old (done ++ l) fecData' := by
  induction l generalizing done fecData with
  | nil => exact ⟨fecData, rfl, by rwa [List.append_nil]⟩
  | cons stripe l ih =>
    have hlt := hl stripe List.mem_cons_self
    obtain ⟨fec₁, hstep, h₁⟩ := h.encodeStripe hlt hred (hle stripe hlt) hfec
    obtain ⟨fec₂, hloop, h₂⟩ := ih (fun σ hσ => hl σ (List.mem_cons_of_mem _ hσ)) h₁
    rw [List.append_assoc] at h₂
    refine ⟨fec₂, ?_, h₂⟩
    rw [List.foldlM_cons, hstep]
    exact hloop

theorem fecEncodeSlice (h : Formed t stripes redundancy s idx x) (hred : redundancy ≤ 128)
    (hle : ∀ stripe < stripes, (stripeOf t.blockSize stripes (t.content s) stripe).length ≤ 128) :
    ∃ fecData, SendData.fecEncodeSlice x idx
        = some (x.modify idx fun slice => { slice with fecData := fecData }) ∧
      Encoded t stripes redundancy s (x.slices idx).fecData (List.range stripes) fecData := by
  obtain ⟨fecData, hloop, hfec⟩ := h.encodeStripes hred hle (List.range stripes)
    (fun stripe hstripe => List.mem_range.mp hstripe)
    ⟨h.fecData, (fun _ _ hmem => absurd hmem List.not_mem_nil), fun _ _ _ => rfl⟩
  rw [List.nil_append] at hfec
  refine ⟨fecData, ?_, hfec⟩
  rw [SendData.fecEncodeSlice, h.fecStripes, hloop]
  rfl

/-! ### The packets -/

theorem sendSlice (h : Formed t stripes redundancy s idx x) :
    SendData.sendSlice x idx = some (x.send ((List.range (blocksIn t.blockSize (t.size s))).map
      fun k => .data ⟨s, k, t.size s⟩ (blockOf t.blockSize (t.content s) k))) := by
  obtain ⟨hsize, hN, hpos⟩ := h.size_le
  rw [SendData.sendSlice, h.nrBlocks, Buffer.mapM_eq_some fun k hk => ?_]
  · rfl
  have hlt := (lt_blocksIn hpos).mp (List.mem_range.mp hk)
  have hwindow := window_block (N := x.fifo.dataBufSize) (b := (x.slices idx).base) hlt
    x.fifo.buffer
  rw [h.content] at hwindow
  have hsmall : k < 1024 := Nat.lt_of_mul_lt_mul_right (hlt.trans_le hsize)
  rw [dataPacket, h.blockSize, h.bytes, h.sliceNo, if_neg (by omega),
    Fifo.readAt_eq (by omega) (by omega), asU16_of_lt (by omega), hwindow, asI32_natCast h.size_lt]
  rfl

theorem withParity (h : Formed t stripes redundancy s idx x) {fecData : List (List UInt8)}
    (hfec : Fec.Blocks t.blockSize (stripes * redundancy) fecData) :
    Formed t stripes redundancy s idx (x.modify idx fun slice => { slice with fecData := fecData }) := by
  have hself := modify_slices_self x idx fun slice => { slice with fecData := fecData }
  exact {
    blockSize := h.blockSize
    fecFlag := h.fecFlag
    fecStripes := h.fecStripes
    fecRedundancy := h.fecRedundancy
    ringSize := h.ringSize
    sliceNo := by rw [hself]; exact h.sliceNo
    bytes := by rw [hself]; exact h.bytes
    size_pos := h.size_pos
    content := by rw [hself]; exact h.content
    fecData := by rw [hself]; exact hfec }

theorem congr {y : Sender} (h : Formed t stripes redundancy s idx x) (hconfig : y.config = x.config)
    (hfifo : y.fifo = x.fifo) (hslot : y.slices idx = x.slices idx) :
    Formed t stripes redundancy s idx y where
  blockSize := by rw [hconfig]; exact h.blockSize
  fecFlag := by rw [hconfig]; exact h.fecFlag
  fecStripes := by rw [hconfig]; exact h.fecStripes
  fecRedundancy := by rw [hconfig]; exact h.fecRedundancy
  ringSize := by rw [hconfig, hfifo]; exact h.ringSize
  sliceNo := by rw [hslot]; exact h.sliceNo
  bytes := by rw [hslot]; exact h.bytes
  size_pos := h.size_pos
  content := by rw [hfifo, hslot]; exact h.content
  fecData := by rw [hslot]; exact h.fecData

theorem sendFecBlocks (h : Formed t stripes redundancy s idx x) :
    SendData.sendFecBlocks x idx = some (x.send ((List.range (stripes * redundancy)).map
      fun no => .fec ⟨asI16 (asI32 stripes), s, asU16 no, t.size s⟩
        ((x.slices idx).fecData.getD no []))) := by
  rw [SendData.sendFecBlocks, h.fecRedundancy, h.fecStripes, Nat.mul_comm, Buffer.mapM_eq_some
    fun no hno => ?_]
  · rfl
  rw [fecPacket, h.sliceNo, h.bytes, h.fecStripes, asI32_natCast h.size_lt,
    h.fecData.getElem? (List.mem_range.mp hno), Option.map_some]

theorem sendBlocks_eq (h : Formed t stripes redundancy s idx x) :
    SendData.sendBlocks x idx
      = some (x.send (firstPackets t stripes redundancy s (x.slices idx).fecData)) := by
  have hsent : ∀ ds, Formed t stripes redundancy s idx (x.send ds) := fun _ => h.congr rfl rfl rfl
  have hbytes : ∀ ds, ((x.send ds).slices idx).bytes > 0 := fun ds => by
    rw [(hsent ds).bytes]
    exact h.size_pos
  rw [SendData.sendBlocks, h.sendSlice]
  simp only [Option.bind_eq_bind, Option.bind_some]
  rw [if_pos ⟨(hsent _).fecFlag, hbytes _⟩, (hsent _).sendFecBlocks, Sender.send, Sender.send,
    List.append_assoc]
  rfl

theorem sendBlocks (h : Formed t stripes redundancy s idx x) (hred : redundancy ≤ 128)
    (hle : ∀ stripe < stripes, (stripeOf t.blockSize stripes (t.content s) stripe).length ≤ 128) :
    ∃ fecData x', (SendData.fecEncodeSlice x idx).bind (SendData.sendBlocks · idx) = some x' ∧
      Encoded t stripes redundancy s (x.slices idx).fecData (List.range stripes) fecData ∧
      x'.sent = x.sent ++ firstPackets t stripes redundancy s fecData := by
  obtain ⟨fecData, hencode, hfec⟩ := h.fecEncodeSlice hred hle
  have hsend := (h.withParity hfec.blocks).sendBlocks_eq
  rw [modify_slices_self] at hsend
  refine ⟨fecData, (x.modify idx fun slice => { slice with fecData := fecData }).send
    (firstPackets t stripes redundancy s fecData), ?_, hfec, rfl⟩
  rw [hencode, Option.bind_some]
  exact hsend

end Formed

/-- The parity blocks of all stripes, when their numbers fit the field or the receiver ignores them. -/
theorem Encoded.isParity {old fecData : List (List UInt8)}
    (h : Encoded t stripes redundancy s old (List.range stripes) fecData) (hred : redundancy ≤ 128)
    (hle : ∀ stripe < stripes, (stripeOf t.blockSize stripes (t.content s) stripe).length ≤ 128)
    (hnos : stripes * redundancy ≤ 65536 ∨ wireStripes stripes = 0) {no : ℕ}
    (hno : no < stripes * redundancy) : IsParity t.blockSize (wireStripes stripes) (t.content s)
      (asU16 no) (fecData.getD no []) := by
  have hred' : 0 < redundancy := Nat.pos_of_ne_zero fun hzero => by
    rw [hzero, Nat.mul_zero] at hno
    omega
  have hstripes : 0 < stripes := Nat.pos_of_ne_zero fun hzero => by
    rw [hzero, Nat.zero_mul] at hno
    omega
  have hlt := Nat.mod_lt no hstripes
  rcases Nat.eq_zero_or_pos (wireStripes stripes) with hzero | hwire
  · rw [hzero]
    exact isParity_zero _ _ (h.blocks.getD hno)
  have hnos := hnos.resolve_right hwire.ne'
  rw [wireStripes_eq hred' hnos hwire, asU16_of_lt (show no < 2 ^ 16 by omega)]
  exact {
    size := h.blocks.getD hno
    no_lt := (Nat.div_lt_of_lt_mul hno).trans_le hred
    stripe_le := hle _ hlt
    parity := fun hne i hi => h.parity no hno (List.mem_range.mpr hlt) hne i hi }

/-- A packet of the first transmission of slice `s`. -/
def Transmits (t : Transfer) (stripes redundancy : ℕ) (s : ℤ) (d : Datagram) : Prop :=
  ∃ x idx x', Formed t stripes redundancy s idx x ∧ x.sent = [] ∧
    (SendData.fecEncodeSlice x idx).bind (SendData.sendBlocks · idx) = some x' ∧ d ∈ x'.sent

/-- The packets of a slice, when the number of a parity block fits its field or the receiver ignores
the parity blocks. -/
theorem Transmits.carries {d : Datagram} (h : Transmits t stripes redundancy s d)
    (hred : redundancy ≤ 128) (hfit : t.StripesFit stripes)
    (hnos : stripes * redundancy ≤ 65536 ∨ wireStripes stripes = 0) :
    t.Carries (wireStripes stripes) d ∧ d.slice = some (s, (t.size s : ℤ)) ∧ d.isReqack = false := by
  obtain ⟨x, idx, x', hx, hnone, hs, hd⟩ := h
  have hlen := hx.length_content
  have hsize := hx.size_pos
  have hmem := Transfer.content_mem (t := t) (s := s) (by omega)
  have hstripe : ∀ stripe < stripes,
      (stripeOf t.blockSize stripes (t.content s) stripe).length ≤ 128 := fun stripe hlt =>
    Transfer.length_stripeOf_le hfit hmem hlt
  obtain ⟨fecData, x'', hs', hfec, hsent⟩ := hx.sendBlocks hred hstripe
  rw [hs'] at hs
  obtain rfl := Option.some.inj hs
  rw [hsent, hnone, List.nil_append] at hd
  rcases List.mem_append.mp hd with hd | hd
  · obtain ⟨k, hk, rfl⟩ := List.mem_map.mp hd
    have hlt := (lt_blocksIn t.blockSize_pos).mp (List.mem_range.mp hk)
    exact ⟨⟨⟨hx.isSlice, hlt⟩, rfl⟩, rfl, rfl⟩
  · obtain ⟨no, hno, rfl⟩ := List.mem_map.mp hd
    exact ⟨⟨⟨hx.isSlice, hsize⟩, by rw [wireStripes],
      hfec.isParity hred hstripe hnos (List.mem_range.mp hno)⟩, rfl, rfl⟩

end Formed

end Udpcast.SendData
