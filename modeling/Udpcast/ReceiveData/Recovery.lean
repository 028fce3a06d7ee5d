import Udpcast.ReceiveData.Arrivals
import Udpcast.SendData.Packets

/-!
# Recovery with parity blocks

What is recovered is what has been sent, as long as the number of every parity block fits its field.
A stripe is recovered if, and only if, the first parity blocks to arrive, as many as it lacks data
blocks, are different ones.
-/

namespace Udpcast.ReceiveData

open Receiver

/-! ### Counting over the stripes -/

section Counting

variable {stripes blocks : ℕ} {l : List Datagram}

theorem sum_length_filter_mod (hpos : 0 < stripes) (l : List ℕ) :
    ∑ stripe ∈ Finset.range stripes, (l.filter fun no => no % stripes = stripe).length
      = l.length := by
  induction l with
  | nil => simp
  | cons no l ih =>
    have hcons : ∀ stripe, ((no :: l).filter fun no => no % stripes = stripe).length
        = (if no % stripes = stripe then 1 else 0)
          + (l.filter fun no => no % stripes = stripe).length := by
      intro stripe
      rw [List.filter_cons]
      split
      · rename_i hmod
        rw [if_pos (of_decide_eq_true hmod), List.length_cons, Nat.add_comm]
      · rename_i hmod
        rw [if_neg fun hh => hmod (decide_eq_true hh), Nat.zero_add]
    simp only [hcons]
    rw [Finset.sum_add_distrib, ih, Finset.sum_ite_eq,
      if_pos (Finset.mem_range.mpr (Nat.mod_lt no hpos)), List.length_cons, Nat.add_comm]

/-- The blocks that have not arrived, stripe by stripe. -/
theorem card_missing_le (hpos : 0 < stripes) :
    (Finset.range blocks \ blocksOf l).card
      ≤ ∑ stripe ∈ Finset.range stripes, (missingIn stripes blocks l stripe).length := by
  rw [Finset.card_eq_sum_card_fiberwise (f := fun k => k % stripes) (t := Finset.range stripes)
    fun k _ => Finset.mem_coe.mpr (Finset.mem_range.mpr (Nat.mod_lt k hpos))]
  refine Finset.sum_le_sum fun stripe _ => ?_
  have hsub : (Finset.range blocks \ blocksOf l).filter (fun k => k % stripes = stripe)
      ⊆ (missingIn stripes blocks l stripe).toFinset := by
    intro k hk
    obtain ⟨hk, hmod⟩ := Finset.mem_filter.mp hk
    obtain ⟨hlt, hnot⟩ := Finset.mem_sdiff.mp hk
    rw [List.mem_toFinset, missingIn, List.mem_filter, ← hmod]
    exact ⟨mem_stripeIndices_mod hpos (Finset.mem_range.mp hlt), decide_eq_true hnot⟩
  exact (Finset.card_le_card hsub).trans (List.toFinset_card_le _)

end Counting

/-- In every stripe as many different parity blocks have arrived as data blocks have not. -/
def Enough (stripes blocks : ℕ) (l : List Datagram) : Prop :=
  ∀ stripe < stripes,
    (missingIn stripes blocks l stripe).length ≤ (parityIn stripes l stripe).toFinset.card

/-- In every stripe the first parity blocks to arrive, as many as are needed, are different. -/
def FirstNeededDiffer (stripes blocks : ℕ) (l : List Datagram) : Prop :=
  ∀ stripe < stripes,
    ((parityIn stripes l stripe).take (missingIn stripes blocks l stripe).length).Nodup

instance (stripes blocks : ℕ) (l : List Datagram) : Decidable (Enough stripes blocks l) :=
  inferInstanceAs (Decidable (∀ stripe < stripes, _))

instance (stripes blocks : ℕ) (l : List Datagram) : Decidable (FirstNeededDiffer stripes blocks l) :=
  inferInstanceAs (Decidable (∀ stripe < stripes, _))

theorem Enough.card_missing_le {stripes blocks : ℕ} {l : List Datagram} (hpos : 0 < stripes)
    (h : Enough stripes blocks l) :
    (Finset.range blocks \ blocksOf l).card ≤ (parityOf l).length :=
  calc (Finset.range blocks \ blocksOf l).card
      ≤ ∑ stripe ∈ Finset.range stripes, (missingIn stripes blocks l stripe).length :=
        ReceiveData.card_missing_le hpos
    _ ≤ ∑ stripe ∈ Finset.range stripes, (parityIn stripes l stripe).length :=
        Finset.sum_le_sum fun stripe hlt =>
          (h stripe (Finset.mem_range.mp hlt)).trans (List.toFinset_card_le _)
    _ = (parityOf l).length := sum_length_filter_mod hpos _

section Recovery

variable {t : Transfer} {stripes blocks : ℕ} {c : List UInt8} {l : List Datagram} {i : Fin 8}
  {r : Receiver} {p : Receiver × (Fin 8 → List Datagram)}

theorem mem_missingIn {stripe k : ℕ} (hlt : stripe < stripes)
    (hk : k ∈ missingIn stripes blocks l stripe) :
    k < blocks ∧ k % stripes = stripe ∧ k ∉ blocksOf l := by
  obtain ⟨hmem, hnot⟩ := List.mem_filter.mp hk
  exact ⟨(mem_stripeIndices (by omega) hmem).1, mod_of_mem_stripeIndices hlt hmem,
    of_decide_eq_true hnot⟩

/-- A missing block that is set has been recovered, so the first parity blocks of its stripe differ. -/
theorem Tracks.firstNeededDiffer {slice : Slice} (h : Tracks stripes blocks l slice)
    (hfull : Finset.range blocks ⊆ Bitmap.bits slice.retransmitMap) :
    FirstNeededDiffer stripes blocks l := by
  intro stripe hlt
  cases hnil : missingIn stripes blocks l stripe with
  | nil => exact List.nodup_nil
  | cons k ks =>
    obtain ⟨hk, hmod, hnot⟩ := mem_missingIn hlt (by rw [hnil]; exact List.mem_cons_self)
    obtain ⟨-, ⟨-, hnodup⟩, -⟩ := h.recovered k (hfull (Finset.mem_range.mpr hk)) hnot
    rw [hmod, hnil] at hnodup
    exact hnodup

/-- A stripe that lacks blocks has been tried, and its first parity blocks would have recovered it. -/
theorem Tracks.full_of_differ (h : Tracks stripes blocks l (r.slices i)) (hholds : Holds stripes c i r)
    (htried : Tried blocks (r.slices i)) (hpos : 0 < stripes)
    (hsub : Bitmap.bits (r.slices i).retransmitMap ⊆ Finset.range blocks)
    (henough : Enough stripes blocks l) (hdiffer : FirstNeededDiffer stripes blocks l) :
    Finset.range blocks ⊆ Bitmap.bits (r.slices i).retransmitMap := by
  intro k hk
  by_contra hunset
  have hlt := Nat.mod_lt k hpos
  have hmem := mem_stripeIndices_mod hpos (Finset.mem_range.mp hk)
  -- the stripe of `k` has never been recovered
  have hbits : ∀ j ∈ stripeIndices blocks stripes (k % stripes),
      j ∈ Bitmap.bits (r.slices i).retransmitMap ↔ j ∈ blocksOf l := by
    intro j hj
    refine ⟨fun hset => ?_, fun harrived => h.arrived harrived⟩
    by_contra hnot
    obtain ⟨-, -, hall⟩ := h.recovered j hset hnot
    rw [mod_of_mem_stripeIndices hlt hj] at hall
    exact hunset (hall k hmem)
  have hmiss : k ∈ missingIn stripes blocks l (k % stripes) :=
    List.mem_filter.mpr ⟨hmem, decide_eq_true fun harrived => hunset (h.arrived harrived)⟩
  have hfirst : FirstDiffer stripes blocks l (k % stripes) :=
    ⟨(henough _ hlt).trans (List.toFinset_card_le _), hdiffer _ hlt⟩
  have hstripes : (r.slices i).fecStripes = stripes := by
    refine hholds.fecStripes.resolve_left fun hzero => ?_
    have hlength := hfirst.1
    have hnil : parityOf l = [] := by
      rw [← h.nos, ← List.length_eq_zero_iff, hholds.fecLength, hzero.2, List.length_nil]
    rw [parityIn, hnil, List.filter_nil, List.length_nil, Nat.le_zero,
      List.length_eq_zero_iff] at hlength
    rw [hlength] at hmiss
    exact List.not_mem_nil hmiss
  rcases htried with hdone | hfew | htried
  · -- as many blocks are set as there are
    rw [hholds.counted] at hdone
    have heq := Finset.eq_of_subset_of_card_le hsub (by rwa [Finset.card_range])
    exact hunset (by rw [heq]; exact hk)
  · -- the parity blocks make up for what is missing
    have hcard := henough.card_missing_le hpos
    have hsubset : Finset.range blocks \ Bitmap.bits (r.slices i).retransmitMap
        ⊆ Finset.range blocks \ blocksOf l :=
      Finset.sdiff_subset_sdiff (Finset.Subset.refl _) h.arrived
    have hle := Finset.card_le_card hsubset
    rw [Finset.card_sdiff_of_subset hsub, Finset.card_range, ← hholds.counted] at hle
    rw [← h.nos, hholds.fecLength] at hcard
    omega
  · refine htried (k % stripes) (by rw [hstripes]; exact hlt) ?_
      ((recovers_iff_firstDiffer h.nos hstripes hholds.fecLength hbits).mpr hfirst)
    rw [needed, length_erasedIn, hstripes]
    exact List.length_pos_of_mem (List.mem_filter.mpr ⟨hmem, decide_eq_true hunset⟩)

theorem Followed.completing_iff_full (h : Followed t stripes p)
    (hi : (p.1.slices i).state = .receiving) (hsize : 0 < t.size (p.1.slices i).sliceNo) :
    p.1.phase = .completing i ↔
      Finset.range (blocksIn t.blockSize (t.size (p.1.slices i).sliceNo))
        ⊆ Bitmap.bits (p.1.slices i).retransmitMap := by
  rw [h.reassembles.keeps.completing i hi hsize, Full]
  exact ⟨fun heq => heq.ge, fun hle => (h.bits_subset hi hsize).antisymm hle⟩

/-- With enough parity blocks the slice completes if the first of them differ, and only then. -/
theorem Followed.completing_iff (h : Followed t stripes p) (hpos : 0 < stripes)
    (hi : (p.1.slices i).state = .receiving) (hsize : 0 < t.size (p.1.slices i).sliceNo)
    (henough : Enough stripes (blocksIn t.blockSize (t.size (p.1.slices i).sliceNo)) (p.2 i)) :
    p.1.phase = .completing i ↔
      FirstNeededDiffer stripes (blocksIn t.blockSize (t.size (p.1.slices i).sliceNo)) (p.2 i) := by
  obtain ⟨htracks, htried⟩ := h.slots i hi hsize
  rw [h.completing_iff_full hi hsize]
  exact ⟨htracks.firstNeededDiffer, htracks.full_of_differ (h.reassembles.keeps.holds i hi hsize)
    htried hpos (h.bits_subset hi hsize) henough⟩

/-- If the parity blocks are ignored, all blocks must arrive. -/
theorem Followed.completing_iff_arrived (h : Followed t 0 p)
    (hi : (p.1.slices i).state = .receiving) (hsize : 0 < t.size (p.1.slices i).sliceNo) :
    p.1.phase = .completing i ↔
      Finset.range (blocksIn t.blockSize (t.size (p.1.slices i).sliceNo)) ⊆ blocksOf (p.2 i) := by
  rw [h.completing_iff_full hi hsize, h.bits_eq (fun hpos => absurd hpos (by omega)) hi hsize]

end Recovery

/-! ### The packets of the sender -/

/-- Packets of the first transmission of slices of `t` arrive, and REQACKs. -/
def FromSender (t : Transfer) (stripes redundancy : ℕ) : Action → Prop
  | .receive _ _ (.data msg payload) =>
    SendData.Transmits t stripes redundancy msg.sliceNo (.data msg payload)
  | .receive _ _ (.fec msg payload) =>
    SendData.Transmits t stripes redundancy msg.sliceNo (.fec msg payload)
  | .receive _ _ (.reqack msg) => t.Describes (.reqack msg)
  | _ => True

/-- Every block that is set is in the ring as it was sent, and so is a slice that completes. -/
def Faithful (t : Transfer) (r : Receiver) : Prop :=
  ∀ i, (r.slices i).state = .receiving → 0 < t.size (r.slices i).sliceNo →
    (∀ k, (r.slices i).retransmitMap.getLsbD k = true → k * t.blockSize < t.size (r.slices i).sliceNo ∧
      Ring.window r.fifo.dataBufSize ((r.slices i).base + k * t.blockSize)
          (min t.blockSize (t.size (r.slices i).sliceNo - k * t.blockSize)) r.fifo.buffer
        = blockOf t.blockSize (t.content (r.slices i).sliceNo) k) ∧
    (r.phase = .completing i →
      Ring.window r.fifo.dataBufSize (r.slices i).base (t.size (r.slices i).sliceNo) r.fifo.buffer
        = t.content (r.slices i).sliceNo)

section Sender

variable {t : Transfer} {stripes redundancy : ℕ} {a : Action} {r : Receiver}

theorem FromSender.carried (h : FromSender t stripes redundancy a) (hred : redundancy ≤ 128)
    (hwhole : t.Whole) (hfit : t.StripesFit stripes)
    (hnos : stripes * redundancy ≤ 65536 ∨ SendData.wireStripes stripes = 0) :
    Carried t (SendData.wireStripes stripes) a := by
  cases a with
  | receive top now d =>
    cases d with
    | data msg payload => exact ⟨(SendData.Transmits.carries h hred hfit hnos).1, fun _ => hwhole⟩
    | fec msg payload => exact ⟨(SendData.Transmits.carries h hred hfit hnos).1, fun _ => hwhole⟩
    | reqack msg => exact ⟨h, fun _ => hwhole⟩
    | skipped => exact ⟨trivial, fun _ => hwhole⟩
    | unexpected => exact ⟨trivial, fun _ => hwhole⟩
  | seed => trivial
  | expire _ => trivial
  | complete => trivial
  | scan _ => trivial
  | write => trivial
  | writeConsumed => trivial
  | writeProduced => trivial

theorem Reassembles.faithful (h : Reassembles t stripes r) : Faithful t r := by
  intro i hi hsize
  have hholds := h.keeps.holds i hi hsize
  have hlen := Transfer.length_content (t := t) (h.sized.isSlice i (by simp [hi])).1
  refine ⟨fun k hk => ?_, fun hphase => ?_⟩
  · have hstored := hholds.stored k (Bitmap.mem_bits.mpr hk)
    rwa [hlen, h.regions.blockSize] at hstored
  · have hfull := (h.keeps.completing i hi hsize).mp hphase
    rw [Full, ← hlen, ← h.regions.blockSize] at hfull
    have hwindow := hholds.window_eq hfull
    rwa [hlen] at hwindow

end Sender

/-! ### Parity blocks with numbers that do not fit -/

/-- A transfer of one byte, in blocks of four bytes. -/
def oneByte (b : UInt8) : Transfer where
  blockSize := 4
  slices := [[b]]
  blockSize_pos := fiveBytes.blockSize_pos
  blockSize_lt := fiveBytes.blockSize_lt
  slice_pos := by simp
  slice_le := by simp [maxSliceSize]

/-- The sender of the byte 1 before `fec_encode_slice`. -/
def oneByteSender (stripes redundancy : ℕ) : SendData.Sender where
  config := { SendData.halfDuplex with
    flags := SendData.flagFec, fecStripes := stripes, fecRedundancy := redundancy }
  fifo := { Fifo.fresh 4 with buffer := fun _ => 1 }
  slices := fun _ => { SendData.Slice.new
    (List.replicate (stripes * redundancy) (List.replicate 4 0)) with bytes := 1, state := .new }
  sliceNo := 1
  pending := []
  atEnd := false
  db := SendData.twoParticipants
  held := none
  msgs := []
  phase := .encoding 0
  reader := .waiting
  input := [1]
  cuts := [1]
  sent := []
  trace := [.formed 0]

theorem oneByteSender_formed (stripes redundancy : ℕ) :
    SendData.Formed (oneByte 1) stripes redundancy 0 0 (oneByteSender stripes redundancy) where
  blockSize := rfl
  fecFlag := by simp [oneByteSender, SendData.NetConfig.hasFlag, SendData.flagFec]
  fecStripes := rfl
  fecRedundancy := rfl
  ringSize := rfl
  sliceNo := rfl
  bytes := rfl
  size_pos := by decide
  content := rfl
  fecData := ⟨List.length_replicate, fun b hb => by
    rw [List.eq_of_mem_replicate hb]
    rfl⟩

theorem oneByte_stripesFit (b : UInt8) {stripes : ℕ} (hpos : 0 < stripes) :
    (oneByte b).StripesFit stripes := by
  intro c hc
  rw [List.mem_singleton.mp hc]
  show blocksIn 4 1 ≤ 128 * stripes
  have hblocks : blocksIn 4 1 = 1 := rfl
  omega

theorem stripeIndices_one {stripes : ℕ} (hpos : 0 < stripes) : stripeIndices 1 stripes 0 = [0] := by
  have hdiv : (1 - 0 + (stripes - 1)) / stripes = 1 := by
    rw [show 1 - 0 + (stripes - 1) = stripes by omega, Nat.div_self hpos]
  rw [stripeIndices, hdiv, List.range_one, List.map_singleton, Nat.zero_mul]

theorem byteAt_oneByte (b : UInt8) {i : ℕ} (hi : i < 4) :
    Fec.byteAt [paddedBlock 4 [b] 0] 0 i = if i = 0 then ⟨b⟩ else 0 := by
  interval_cases i
  · rfl
  · rfl
  · rfl
  · rfl

/-- A parity block with a number above 65535 is taken for one of another byte. -/
theorem exists_mistaken {stripes redundancy : ℕ} (hwire : 0 < SendData.wireStripes stripes)
    (hred : redundancy ≤ 128) (hbig : 65536 < stripes * redundancy) :
    ∃ payload b, b ≠ 1 ∧
      SendData.Transmits (oneByte 1) stripes redundancy 0
        (.fec ⟨SendData.asI16 (SendData.asI32 stripes), 0, 0, 1⟩ payload) ∧
      IsParity 4 (SendData.wireStripes stripes) [b] 0 payload := by
  have hpos : 0 < stripes := Nat.pos_of_ne_zero fun hzero => by
    rw [hzero, Nat.zero_mul] at hbig
    omega
  have hblocks : ∀ b : UInt8, blocksIn 4 [b].length = 1 := fun b => by
    rw [List.length_singleton]
    decide
  have hone : ∀ (n : ℕ) (b : UInt8), 0 < n → stripeOf 4 n [b] 0 = [paddedBlock 4 [b] 0] :=
    fun n b hn => by rw [stripeOf, hblocks, stripeIndices_one hn, List.map_singleton]
  have hfit : ∀ stripe < stripes, (stripeOf 4 stripes [1] stripe).length ≤ 128 :=
    fun stripe hlt => Transfer.length_stripeOf_le (t := oneByte 1) (oneByte_stripesFit 1 hpos)
      List.mem_cons_self hlt
  have hsingle : ∀ (b : List UInt8) (no i : ℕ),
      Fec.parityByte [b] no i = Fec.coefficient no 0 * Fec.byteAt [b] 0 i := fun b no i => by
    rw [Fec.parityByte, List.length_singleton, Finset.sum_range_one]
  obtain ⟨fecData, x', hs, hfec, hsent⟩ := (oneByteSender_formed stripes redundancy).sendBlocks hred
    hfit
  have hlt : 65536 / stripes < redundancy := Nat.div_lt_of_lt_mul hbig
  -- the parity block is a multiple of the byte, but not the one of parity block 0
  obtain ⟨c, hc, hbytes⟩ : ∃ c : Fec.Gf256, c ≠ Fec.coefficient 0 0 ∧ ∀ i < 4,
      Fec.byteAt [fecData.getD 65536 []] 0 i = c * Fec.byteAt [paddedBlock 4 [1] 0] 0 i := by
    by_cases hstripe : 65536 % stripes = 0
    · have hrow : 65536 / stripes ≠ 0 := fun hzero => by
        have hdiv := Nat.mod_add_div' 65536 stripes
        rw [hstripe, hzero] at hdiv
        omega
      refine ⟨Fec.coefficient (65536 / stripes) 0, fun heq => hrow ?_, fun i hi => ?_⟩
      · exact Fec.coefficient_inj (by omega) (by omega) heq
      · have hparity := hfec.parity 65536 hbig (List.mem_range.mpr (Nat.mod_lt _ hpos))
        rw [hstripe] at hparity
        have hdata : stripeOf (oneByte 1).blockSize stripes ((oneByte 1).content 0) 0
            = [paddedBlock 4 [1] 0] := hone stripes 1 hpos
        rw [hdata] at hparity
        exact (hparity (List.cons_ne_nil _ _) i hi).trans (hsingle _ _ _)
    · refine ⟨0, (Fec.coefficient_ne_zero (by omega) (by omega)).symm, fun i hi => ?_⟩
      have hdata : stripeOf (oneByte 1).blockSize stripes ((oneByte 1).content 0) (65536 % stripes)
          = [] := by
        show stripeOf 4 stripes [1] _ = []
        rw [stripeOf, hblocks, stripeIndices_eq_nil hpos (by omega), List.map_nil]
      have hold : fecData.getD 65536 [] = List.replicate 4 0 := by
        rw [hfec.kept 65536 hbig hdata]
        show (List.replicate (stripes * redundancy) (List.replicate 4 (0 : UInt8))).getD 65536 [] = _
        rw [List.getD_replicate _ hbig]
      rw [hold, zero_mul]
      exact congrArg Fec.Gf256.mk (List.getD_replicate _ hi)
  have hcoefficient : Fec.coefficient 0 0 ≠ 0 := Fec.coefficient_ne_zero (by omega) (by omega)
  refine ⟨fecData.getD 65536 [], (c / Fec.coefficient 0 0).byte, fun hb => hc ?_, ?_, ?_⟩
  · have hdiv : c / Fec.coefficient 0 0 = 1 := Fec.Gf256.ext hb
    exact (div_eq_one_iff_eq hcoefficient).mp hdiv
  · refine ⟨oneByteSender stripes redundancy, 0, x', oneByteSender_formed stripes redundancy, rfl,
      hs, ?_⟩
    rw [hsent]
    exact List.mem_append_right _ (SendData.fec_mem_firstPackets hbig)
  · refine ⟨hfec.blocks.getD hbig, by rw [Nat.zero_div]; omega, ?_, fun _ i hi => ?_⟩
    · rw [Nat.zero_mod, hone _ _ hwire, List.length_singleton]
      omega
    · rw [Nat.zero_mod, Nat.zero_div, hone _ _ hwire, hsingle, hbytes i hi, byteAt_oneByte _ hi,
        byteAt_oneByte _ hi]
      split
      · show c * 1 = _ * (c / _)
        rw [mul_one, mul_div_cancel₀ _ hcoefficient]
      · rw [mul_zero, mul_zero]

/-- A receiver of blocks of four bytes. -/
def fourBytesStart : Receiver := Receiver.start 4 500 [] (Fifo.fresh 4)

theorem fourBytesStart_oneByte (b : UInt8) : Starts (oneByte b) fourBytesStart :=
  ⟨500, [], _, rfl, Fifo.new_eq (oneByte b).blockSize_pos, by simp⟩

theorem exists_recovered {stripes : ℕ} (hpos : 0 < stripes) (hlt : stripes < 2 ^ 31) {field : ℤ}
    (hfield : field.toNat = stripes) {b : UInt8} {payload : List UInt8} (hparity : IsParity 4 stripes [b] 0 payload) :
    ∃ r₁ r₂, step fourBytesStart .seed = some r₁ ∧
      step r₁ (.receive 0 0 (.fec ⟨field, 0, 0, 1⟩ payload)) = some r₂ ∧
      (∀ i, (r₁.slices i).state = .free) ∧ (r₂.slices 0).state = .receiving ∧
      (r₂.slices 0).sliceNo = 0 ∧ r₂.phase = .completing 0 ∧
      Ring.window r₂.fifo.dataBufSize (r₂.slices 0).base 1 r₂.fifo.buffer = [b] := by
  refine ⟨{ fourBytesStart with phase := .polling }, ?_⟩
  have hseed : step fourBytesStart .seed = some { fourBytesStart with phase := .polling } := rfl
  generalize hr : claim { fourBytesStart with phase := .scanning } 0 0 = r
  have hstep : step { fourBytesStart with phase := .polling }
      (.receive 0 0 (.fec ⟨field, 0, 0, 1⟩ payload))
        = ReceiveData.receiveFec r 0 ⟨field, 0, 0, 1⟩ payload := by
    obtain ⟨n, hn⟩ : ∃ n, (Fifo.fresh 4).freeMemQueue.consume (4 * maxSliceSize) = some n :=
      ⟨16384, by decide +kernel⟩
    have hnew : newSlice { fourBytesStart with phase := .scanning } 0 = some (some (0, r)) := by
      have hfree : freeSlot { fourBytesStart with phase := .scanning } = some 0 := rfl
      rw [newSlice, hfree, ← hr]
      show ((Fifo.fresh 4).freeMemQueue.consume (4 * maxSliceSize)).map _ = _
      rw [hn]
      rfl
    have hfind : findSlice { fourBytesStart with phase := .scanning } none 0 = none := rfl
    rw [step, receiveDatagram, if_pos ⟨rfl, by simp [fourBytesStart, Receiver.start]⟩]
    show processFecBlock { fourBytesStart with phase := .scanning } _ _ = _
    rw [processFecBlock, openSlice, hfind]
    simp only [hnew, Option.bind_eq_bind, Option.bind_some]
  have hself : r.slices 0 = Slice.claimed 0 0 := by
    rw [← hr, claim_slices_self]
    rfl
  have hb : r.blockSize = 4 := by
    rw [← hr]
    rfl
  have hfifo : r.fifo = Fifo.fresh 4 := by
    rw [← hr]
    rfl
  have hholds : Holds stripes [b] 0 r := Holds.claimed hself (by omega)
    (by rw [hb]; decide) (by rw [hfifo, hb]; rfl) (by simp) (by rw [hb]; simp [maxSliceSize])
  obtain ⟨q₁, q₂, heq, h₁, htakes, h₂, hadds⟩ := @Holds.receiveFec stripes [b] 0 r
    hholds hlt ⟨field, 0, 0, 1⟩ payload rfl hfield (by rw [hb]; exact Or.inr (by simp))
    (by rw [hb]; exact hparity)
  have hblocks : blocksIn r.blockSize [b].length = 1 := by
    rw [hb, List.length_singleton]
    decide
  rw [hblocks] at heq hadds
  have hnone : Bitmap.bits (q₁.slices 0).retransmitMap = ∅ := by
    rw [htakes.bits, hself, Finset.union_empty]
    exact Bitmap.bits_zero
  have hnos : (q₁.slices 0).fecBlockNos = [0] := by
    rw [htakes.nos, hself]
    rfl
  -- the one block is recovered
  have hset : 0 ∈ Bitmap.bits (q₂.slices 0).retransmitMap := by
    have hlength := h₁.fecLength
    rw [hnos, List.length_singleton] at hlength
    have hstripes : (q₁.slices 0).fecStripes = stripes := h₁.fecStripes.resolve_left fun hzero => by
      rw [hzero.2] at hlength
      cases hlength
    have hcount := h₁.counted
    rw [hnone, Finset.card_empty] at hcount
    rw [hadds.bits, hnone, Finset.empty_union, mem_added, hstripes, hcount]
    have hneeded : needed (q₁.slices 0) 1 0 ≤ 1 := by
      rw [needed, length_erasedIn, hstripes, stripeIndices_one hpos]
      exact List.length_filter_le _ _
    have hfirst : [0].filter (fun no => no % stripes = 0) = [0] := by
      rw [List.filter_cons_of_pos (by rw [Nat.zero_mod]; rfl), List.filter_nil]
    refine ⟨by omega, 0, hpos, ?_, by rw [stripeIndices_one hpos]; exact List.mem_singleton_self 0⟩
    rw [recovers_iff_nos h₁.fecLength, hnos, hstripes, hfirst]
    exact ⟨hneeded, (List.nodup_singleton 0).sublist (List.take_sublist _ _)⟩
  have hfull : 1 ≤ (q₂.slices 0).dataBlocksTransferred := by
    rw [h₂.counted]
    exact Finset.card_pos.mpr ⟨0, hset⟩
  rw [settle, if_pos hfull] at heq
  have hblocks₂ : blocksIn q₂.blockSize [b].length = 1 := by
    rw [hadds.blockSize, htakes.blockSize, hblocks]
  have hwindow := h₂.window_eq (h₂.full_iff.mp (by rw [hblocks₂]; exact hfull))
  have hno : (q₂.slices 0).sliceNo = 0 := by
    have hfilled := (receiveFec_filled (by rw [hself]; decide) heq).1.sliceNo
    rw [hself] at hfilled
    exact hfilled
  exact ⟨{ q₂ with phase := .completing 0 }, hseed, by rw [hstep, heq], fun i => rfl, h₂.receiving,
    hno, rfl, hwindow⟩

theorem exists_not_faithful {stripes redundancy : ℕ} (hwire : 0 < SendData.wireStripes stripes)
    (hred : redundancy ≤ 128) (hbig : 65536 < stripes * redundancy) :
    ∃ t r₀ r, Transfer.Whole t ∧ t.StripesFit stripes ∧ Starts t r₀ ∧
      Run.Reach step (fun r a => FromSender t stripes redundancy a ∧ ClaimsAlone t r a) r₀ r ∧
      ¬ Faithful t r := by
  obtain ⟨payload, b, hb, hsent, hparity⟩ := exists_mistaken hwire hred hbig
  have hlt := SendData.wireStripes_lt stripes
  have hpos : 0 < stripes := Nat.pos_of_ne_zero fun hzero => by
    rw [hzero, Nat.zero_mul] at hbig
    omega
  obtain ⟨r₁, r₂, hs₁, hs₂, hfree, hi, hno, hphase, hwindow⟩ :=
    exists_recovered hwire (by omega) (by rw [SendData.wireStripes]) hparity
  refine ⟨oneByte 1, fourBytesStart, r₂, fun c hc => ?_, oneByte_stripesFit 1 hpos,
    fourBytesStart_oneByte 1, ?_, fun hfaithful => hb ?_⟩
  · rw [List.mem_singleton.mp hc]
    exact Or.inr (by decide)
  · refine Run.Reach.next (.receive 0 0 (.fec ⟨_, 0, 0, 1⟩ payload))
      (Run.Reach.next .seed Run.Reach.start ⟨trivial, ?_⟩ hs₁) ⟨hsent, ?_⟩ hs₂
    · exact fun s _ _ j hj => by cases hj
    · exact fun s _ _ j hj => by
        rw [hfree j] at hj
        cases hj
  · have hright := (hfaithful 0 hi (by rw [hno]; decide)).2 hphase
    rw [hno] at hright
    exact List.head_eq_of_cons_eq (hwindow.symm.trans hright)

/-- On the packets of the sender, in any order and with any duplication, and with enough different
parity blocks for every stripe, the slice completes if, and only if, the parity blocks are not
ignored and in every stripe the first of them differ, or no block is missing. -/
theorem try_fec_recover_completes (t : Transfer) (stripes redundancy : ℕ) (hred₀ : 0 < redundancy)
    (hred : redundancy ≤ 128)
    (hnos : stripes * redundancy ≤ 65536 ∨ SendData.asI16 (SendData.asI32 stripes) ≤ 0)
    (hwhole : t.Whole) (hfit : t.StripesFit stripes) (r₀ : Receiver) (hstart : Starts t r₀)
    (p : Receiver × (Fin 8 → List Datagram))
    (hrun : Run.Reach (Run.observe step arrivals)
      (fun p a => FromSender t stripes redundancy a ∧ ClaimsAlone t p.1 a) (r₀, fun _ => []) p)
    (i : Fin 8) (hi : (p.1.slices i).state = .receiving)
    (hsize : 0 < t.size (p.1.slices i).sliceNo)
    (henough : Enough stripes (blocksIn t.blockSize (t.size (p.1.slices i).sliceNo)) (p.2 i)) :
    p.1.phase = .completing i ↔
      0 < SendData.asI16 (SendData.asI32 stripes) ∧
        FirstNeededDiffer stripes (blocksIn t.blockSize (t.size (p.1.slices i).sliceNo)) (p.2 i) ∨
      Finset.range (blocksIn t.blockSize (t.size (p.1.slices i).sliceNo)) ⊆ blocksOf (p.2 i) := by
  have hlt := SendData.wireStripes_lt stripes
  rw [← Int.toNat_eq_zero] at hnos
  have hp := hrun.invariant (followed_start hstart (SendData.wireStripes stripes))
    fun q a q' hq ha hs => hq.step (by omega) (ha.1.carried hred hwhole hfit hnos) ha.2 hs
  rcases Nat.eq_zero_or_pos (SendData.wireStripes stripes) with hzero | hwire
  · rw [hzero] at hp
    rw [SendData.wireStripes, Int.toNat_eq_zero] at hzero
    rw [hp.completing_iff_arrived hi hsize]
    exact ⟨Or.inr, fun h => h.resolve_left fun hh => by omega⟩
  · have hsame := SendData.wireStripes_eq hred₀ (hnos.resolve_right (Nat.ne_of_gt hwire)) hwire
    have hfield : 0 < SendData.asI16 (SendData.asI32 stripes) := Int.pos_iff_toNat_pos.mpr hwire
    rw [hsame] at hp hwire
    constructor
    · intro hphase
      exact Or.inl ⟨hfield, (hp.completing_iff hwire hi hsize henough).mp hphase⟩
    · rintro (⟨-, hdiffer⟩ | harrived)
      · exact (hp.completing_iff hwire hi hsize henough).mpr hdiffer
      · exact (hp.completing_iff_full hi hsize).mpr (harrived.trans (hp.slots i hi hsize).1.arrived)

/-- A transfer of two blocks. -/
def twoBlocks : Transfer where
  blockSize := 4
  slices := [[1, 2, 3, 4, 5, 6, 7, 8]]
  blockSize_pos := fiveBytes.blockSize_pos
  blockSize_lt := fiveBytes.blockSize_lt
  slice_pos := by decide
  slice_le := by decide

/-- One stripe with two parity blocks. -/
def oneStripe : SendData.NetConfig := { SendData.halfDuplex with
  flags := SendData.flagFec, fecStripes := 1, fecRedundancy := 2, fecStripesize := 128 }

/-- The packets of `twoBlocks`. -/
def twoBlocksSent : List Datagram :=
  [.data ⟨0, 0, 8⟩ [1, 2, 3, 4], .data ⟨0, 1, 8⟩ [5, 6, 7, 8],
    .fec ⟨1, 0, 0, 8⟩ [2, 211, 156, 246], .fec ⟨1, 0, 1, 8⟩ [35, 242, 189, 149]]

theorem twoBlocksSent_transmits {d : Datagram} (hd : d ∈ twoBlocksSent) :
    SendData.Transmits twoBlocks 1 2 0 d := by
  have hexec : ((SendData.Sender.start oneStripe SendData.twoParticipants).bind fun x =>
      Run.exec SendData.step (fun _ _ => True) x
        (SendData.readBytes [1, 2, 3, 4, 5, 6, 7, 8] ++ [.readerWait, .read []] ++
          List.replicate 5 .advance)).map
      (fun x => decide (x.config.blockSize = 4 ∧ x.config.hasFlag SendData.flagFec = true ∧
        x.config.fecStripes = 1 ∧ x.config.fecRedundancy = 2 ∧
        x.fifo.dataBufSize = x.config.blockSize * 4096 ∧ (x.slices 0).sliceNo = 0 ∧
        (x.slices 0).bytes = 8 ∧
        Ring.window x.fifo.dataBufSize (x.slices 0).base 8 x.fifo.buffer = [1, 2, 3, 4, 5, 6, 7, 8] ∧
        (x.slices 0).fecData.length = 2 ∧ (∀ b ∈ (x.slices 0).fecData, b.length = 4) ∧ x.sent = [] ∧
        ((SendData.fecEncodeSlice x 0).bind (SendData.sendBlocks · 0)).map (·.sent)
          = some twoBlocksSent)) = some true := by decide +kernel
  obtain ⟨x, -, hp⟩ := Option.map_eq_some_iff.mp hexec
  obtain ⟨hb, hflag, hstripes, hred, hN, hno, hbytes, hwindow, hlen, hblocks, hnone, hsent⟩ :=
    of_decide_eq_true hp
  obtain ⟨x', hx', hall⟩ := Option.map_eq_some_iff.mp hsent
  exact ⟨x, 0, x', ⟨hb, hflag, hstripes, hred, hN, hno, hbytes, by decide, hwindow, ⟨hlen, hblocks⟩⟩,
    hnone, hx', hall ▸ hd⟩

/-- A packet of `twoBlocks` arrives. -/
def OfTwoBlocks : Action → Prop
  | .receive _ _ d => d ∈ twoBlocksSent
  | _ => True

instance : (a : Action) → Decidable (OfTwoBlocks a)
  | .receive _ _ d => inferInstanceAs (Decidable (d ∈ twoBlocksSent))
  | .seed | .expire _ | .complete | .scan _ | .write | .writeConsumed | .writeProduced =>
    inferInstanceAs (Decidable True)

theorem OfTwoBlocks.fromSender {a : Action} (h : OfTwoBlocks a) : FromSender twoBlocks 1 2 a := by
  cases a with
  | receive top now d =>
    have hsent := twoBlocksSent_transmits h
    simp only [OfTwoBlocks, twoBlocksSent, List.mem_cons, List.not_mem_nil, or_false] at h
    rcases h with rfl | rfl | rfl | rfl
    · exact hsent
    · exact hsent
    · exact hsent
    · exact hsent
  | seed => trivial
  | expire _ => trivial
  | complete => trivial
  | scan _ => trivial
  | write => trivial
  | writeConsumed => trivial
  | writeProduced => trivial

theorem twoBlocks_start : twoBlocks.Whole ∧ twoBlocks.StripesFit 1 ∧
    Starts twoBlocks fourBytesStart :=
  ⟨fun c hc => by
    rw [List.mem_singleton.mp hc]
    exact Or.inl (by decide), fun c hc => by
    rw [List.mem_singleton.mp hc]
    decide, 500, [], _, rfl, Fifo.new_eq (by decide), by simp⟩

theorem exists_twoBlocks {l : List Action} {b : Bool}
    (hexec : (Run.exec (Run.observe step arrivals)
      (fun p a => OfTwoBlocks a ∧ ClaimsAlone twoBlocks p.1 a) (fourBytesStart, fun _ => []) l).map
      (fun p => decide ((p.1.slices 0).state = .receiving ∧ (p.1.slices 0).sliceNo = 0 ∧
        Enough 1 2 (p.2 0) ∧ blocksOf (p.2 0) = ∅ ∧ (p.1.phase = .completing 0 ↔ b = true))) = some true) :
    ∃ p : Receiver × (Fin 8 → List Datagram), Run.Reach (Run.observe step arrivals)
        (fun p a => FromSender twoBlocks 1 2 a ∧ ClaimsAlone twoBlocks p.1 a)
        (fourBytesStart, fun _ => []) p ∧ (p.1.slices 0).state = .receiving ∧
      (p.1.slices 0).sliceNo = 0 ∧ Enough 1 2 (p.2 0) ∧ blocksOf (p.2 0) = ∅ ∧
      (p.1.phase = .completing 0 ↔ b = true) := by
  obtain ⟨p, hp, h⟩ := Option.map_eq_some_iff.mp hexec
  exact ⟨p, (Run.reach_of_exec hp).mono fun _ _ ha => ⟨ha.1.fromSender, ha.2⟩, of_decide_eq_true h⟩

/-- Both parity blocks, and no block. -/
theorem try_fec_recover_completes_twoBlocks : ∃ p : Receiver × (Fin 8 → List Datagram),
    p.1.phase = .completing 0 ∧ FirstNeededDiffer 1 2 (p.2 0) := by
  obtain ⟨p, hrun, hi, hno, henough, hnone, hphase⟩ := exists_twoBlocks (b := true)
    (l := [.seed, .receive 0 0 (.fec ⟨1, 0, 1, 8⟩ [35, 242, 189, 149]), .scan 0,
      .receive 0 0 (.fec ⟨1, 0, 0, 8⟩ [2, 211, 156, 246])]) (by decide +kernel)
  obtain ⟨hwhole, hfit, hstart⟩ := twoBlocks_start
  have hblocks : blocksIn twoBlocks.blockSize (twoBlocks.size 0) = 2 := by decide
  have hiff := try_fec_recover_completes twoBlocks 1 2 (by decide) (by decide) (Or.inl (by decide))
    hwhole hfit fourBytesStart hstart p hrun 0 hi (by rw [hno]; decide)
    (by rw [hno, hblocks]; exact henough)
  rw [hno, hblocks, hnone] at hiff
  exact ⟨p, hphase.mpr rfl, ((hiff.mp (hphase.mpr rfl)).resolve_right (by decide)).2⟩

/-- Parity block 0 arrives twice, then parity block 1: both blocks of the slice could be computed,
but they are not. -/
theorem try_fec_recover_stalls : ∃ p : Receiver × (Fin 8 → List Datagram),
    twoBlocks.Whole ∧ twoBlocks.StripesFit 1 ∧ Starts twoBlocks fourBytesStart ∧
    Run.Reach (Run.observe step arrivals)
      (fun p a => FromSender twoBlocks 1 2 a ∧ ClaimsAlone twoBlocks p.1 a)
      (fourBytesStart, fun _ => []) p ∧ (p.1.slices 0).state = .receiving ∧
    (p.1.slices 0).sliceNo = 0 ∧ Enough 1 2 (p.2 0) ∧ p.1.phase ≠ .completing 0 := by
  obtain ⟨p, hrun, hi, hno, henough, hnone, hphase⟩ := exists_twoBlocks (b := false)
    (l := [.seed, .receive 0 0 (.fec ⟨1, 0, 0, 8⟩ [2, 211, 156, 246]), .scan 0,
      .receive 0 0 (.fec ⟨1, 0, 0, 8⟩ [2, 211, 156, 246]), .scan 0,
      .receive 0 0 (.fec ⟨1, 0, 1, 8⟩ [35, 242, 189, 149])]) (by decide +kernel)
  obtain ⟨hwhole, hfit, hstart⟩ := twoBlocks_start
  exact ⟨p, hwhole, hfit, hstart, hrun, hi, hno, henough, fun hp => by cases hphase.mp hp⟩

end Udpcast.ReceiveData
