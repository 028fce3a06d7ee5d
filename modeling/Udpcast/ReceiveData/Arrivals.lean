import Udpcast.ReceiveData.Holding

/-!
# The packets that have arrived for a slot

An observer lists for every slot the packets of its slice that have arrived since the slot was
claimed.  Without parity blocks the bits that are set are exactly the blocks in this list.
-/

namespace Udpcast.ReceiveData

open Receiver

/-! ### The observer -/

/-- The packet for slice `s` that an action brings. -/
def arrivedFor (a : Action) (s : ℤ) : List Datagram :=
  match a with
  | .receive _ _ d => if d.slice.map Prod.fst = some s then [d] else []
  | _ => []

/-- The packets that have arrived for each slot since it was claimed. -/
def arrivals (r : Receiver) (a : Action) (r' : Receiver) (arrived : Fin 8 → List Datagram)
    (i : Fin 8) : List Datagram :=
  (if (r'.slices i).state = .receiving ∧ (r.slices i).state ≠ .receiving then [] else arrived i)
    ++ arrivedFor a (r'.slices i).sliceNo

/-- The numbers of the blocks and of the parity blocks in a list of packets. -/
def blocksOf (l : List Datagram) : Finset ℕ := (l.flatMap Datagram.blockNos).toFinset
def parityOf (l : List Datagram) : List ℕ := l.flatMap Datagram.parityNos

@[simp] theorem blocksOf_nil : blocksOf [] = ∅ := rfl
@[simp] theorem parityOf_nil : parityOf [] = [] := rfl

theorem blocksOf_append (l l' : List Datagram) : blocksOf (l ++ l') = blocksOf l ∪ blocksOf l' := by
  rw [blocksOf, List.flatMap_append, List.toFinset_append, blocksOf, blocksOf]

theorem parityOf_append (l l' : List Datagram) : parityOf (l ++ l') = parityOf l ++ parityOf l' :=
  List.flatMap_append

theorem blocksOf_singleton (d : Datagram) : blocksOf [d] = d.blockNos.toFinset := by
  rw [blocksOf, List.flatMap_singleton]

theorem parityOf_singleton (d : Datagram) : parityOf [d] = d.parityNos := List.flatMap_singleton ..

/-! ### What a step does with one slot -/

/-- The slots that are not in use have no slice. -/
def Unnamed (r : Receiver) : Prop := ∀ i, (r.slices i).state = .free → (r.slices i).sliceNo = -1

theorem Unnamed.change {r r' : Receiver} {a : Action} (h : Unnamed r) (hc : Change r a r') :
    Unnamed r' := by
  intro j hj
  cases hc with
  | kept _ hsame _ _ =>
    obtain ⟨hstate, hno, -⟩ := hsame j
    rw [hno]
    exact h j (by rw [← hstate, hj])
  | @claimed i _ _ _ _ _ hsame hstate _ _ _ _ _ =>
    by_cases hji : j = i
    · rw [hji, hstate] at hj
      cases hj
    · obtain ⟨hstate', hno, -⟩ := hsame j hji
      rw [hno]
      exact h j (by rw [← hstate', hj])
  | @completed i _ _ _ _ hother hself _ _ =>
    by_cases hji : j = i
    · rw [hji, hself] at hj
      cases hj
    · rw [hother j hji] at hj ⊢
      exact h j hj

/-- A step leaves the slot of a data slice alone, claims it without a packet, or handles a packet of
its slice, for which the slot may have been claimed. -/
inductive SlotStep (t : Transfer) (stripes : ℕ) (r : Receiver) (a : Action) (r' : Receiver)
    (i : Fin 8) : Prop
  | same {n : ℕ} {known : Bool} : (r.slices i).state = .receiving →
      r'.slices i = { r.slices i with bytes := n, bytesKnown := known } →
      arrivedFor a (r'.slices i).sliceNo = [] → SlotStep t stripes r a r' i
  | seeded {base : ℕ} {s b : ℤ} : (r.slices i).state ≠ .receiving →
      r'.slices i = { Slice.claimed base s with bytes := asUsize b, bytesKnown := true } →
      arrivedFor a (r'.slices i).sliceNo = [] → SlotStep t stripes r a r' i
  | packet {r₁ : Receiver} {d : Datagram} : arrivedFor a (r'.slices i).sliceNo = [d] →
      ((r.slices i).state = .receiving ∧ (r.slices i).sliceNo = (r'.slices i).sliceNo ∧
          r₁.slices i = r.slices i ∨
        (r.slices i).state ≠ .receiving ∧
          ∃ base, r₁.slices i = Slice.claimed base (r'.slices i).sliceNo) →
      r₁.blockSize = t.blockSize → r₁.phase = .scanning →
      Holds stripes (t.content (r'.slices i).sliceNo) i r₁ →
      Outcome stripes (t.content (r'.slices i).sliceNo) i d r₁ r' → SlotStep t stripes r a r' i

section Step

variable {t : Transfer} {stripes : ℕ} {r r' : Receiver} {a : Action} {i : Fin 8}

theorem not_unserved (hnames : Unnamed r) {c : Option (Fin 8)} {s : ℤ} (hs : 0 ≤ s)
    (hi : (r.slices i).state = .receiving) (hno : (r.slices i).sliceNo = s) :
    ¬ Unserved r c s := by
  rintro (⟨hnone, -⟩ | ⟨j, hj, hfree⟩)
  · exact findSlice_none hnone i (by simp [hi]) hno
  · have h₁ := (findSlice_some hj).1
    have h₂ := hnames j hfree
    omega

theorem slotStep (h : Reassembles t stripes r) (hc : Consistent r) (hnames : Unnamed r)
    (hlt : stripes < 2 ^ 31) (hcarried : Carried t stripes a)
    (halone : ClaimsAlone t r a) (hs : StepTo r a r') (hi : (r'.slices i).state = .receiving)
    (hsize : 0 < t.size (r'.slices i).sliceNo) : SlotStep t stripes r a r' i := by
  have hsized' := h.sized.step h.used hcarried.genuine hs
  have hno₀ : 0 ≤ (r'.slices i).sliceNo := (hsized'.isSlice i (by simp [hi])).1
  cases hs with
  | seeded _ => exact SlotStep.same hi rfl rfl
  | seedNoSlot _ _ => exact SlotStep.same hi rfl rfl
  | @seed s b x rest j r₁ hphase hopen =>
    obtain ⟨hother, -⟩ := hopen.frame
    by_cases hij : i = j
    · subst hij
      have hself : (r₁.learnBytes i b).slices i
          = { r₁.slices i with bytes := asUsize b, bytesKnown := true } := learnBytes_slices_self ..
      rcases hopen.slot with ⟨rfl, -, -⟩ | ⟨-, hstate, -, hnew, -⟩
      · have hi' : ((r₁.learnBytes i b).slices i).state = .receiving := hi
        rw [hself] at hi'
        exact SlotStep.same hi' hself rfl
      · exact SlotStep.seeded hstate (by rw [← hnew]; exact hself) rfl
    · have hsame : (r₁.learnBytes j b).slices i = r.slices i := by
        rw [Receiver.learnBytes, modify_slices_of_ne _ _ _ hij, hother i hij]
      have hi' : ((r₁.learnBytes j b).slices i).state = .receiving := hi
      rw [hsame] at hi'
      exact SlotStep.same hi' hsame rfl
  | expire _ _ _ => exact SlotStep.same hi rfl rfl
  | skipped _ =>
    obtain ⟨_, harmed⟩ := armed_frame r _
    rw [harmed] at hi ⊢
    exact SlotStep.same hi rfl rfl
  | @ignored top now d _ _ hno =>
    rw [armed_slices] at hi hno₀
    refine SlotStep.same hi (by rw [armed_slices]) ?_
    rw [armed_slices]
    refine if_neg fun heq => ?_
    obtain ⟨⟨s, b⟩, hd, hs⟩ := Option.map_eq_some_iff.mp heq
    exact not_unserved hnames hno₀ hi rfl (by rw [← hs]; exact hno s b hd)
  | @answered top now m _ hnone _ =>
    rw [emit_slices, armed_slices] at hi
    refine SlotStep.same hi (by rw [emit_slices, armed_slices]) ?_
    rw [emit_slices, armed_slices]
    refine if_neg fun heq => ?_
    exact findSlice_none hnone i (by simp [hi]) (Option.some.inj heq).symm
  | @handled top now d s b j r₁ r' hphase hd hopen hf hfill hnot _ _ =>
    by_cases hij : i = j
    · subst hij
      obtain ⟨_, harmed⟩ := armed_frame r now
      have hregions₀ : Regions t (armed r now) := by
        rw [harmed]
        exact h.regions.congr rfl rfl rfl rfl
      have hslice := hcarried.1.describes.isSlice hd
      have hno : (r'.slices i).sliceNo = s := hfill.sliceNo.trans hopen.sliceNo
      have hb : r₁.blockSize = t.blockSize := hopen.frame.2.2.1.trans hregions₀.blockSize
      have hi₁ : (r₁.slices i).state = .receiving := by rw [← hfill.state, hi]
      have hholds := ((h.keeps.armed hphase).opened hregions₀ hslice (fun j => by simp)
        hopen).holds i hi₁ (by rw [← hfill.sliceNo]; exact hsize)
      rw [hopen.sliceNo] at hholds
      refine SlotStep.packet (d := d) ?_ ?_ hb
        (hopen.frame.2.1.trans (armed_phase r now)) (by rwa [hno]) ?_
      · rw [hno]
        exact if_pos (by rw [hd]; rfl)
      · rcases hopen.slot with ⟨rfl, -, -⟩ | ⟨-, hstate, -, hself, -⟩
        · have hsame := hfill.sliceNo
          rw [armed_slices] at hi₁ hsame ⊢
          exact Or.inl ⟨hi₁, hsame.symm, rfl⟩
        · rw [armed_slices] at hstate
          rw [hno]
          exact Or.inr ⟨hstate, _, hself⟩
      · rw [hno]
        exact hholds.outcome hlt hb hd hcarried.1 hcarried.2 hf
    · obtain ⟨hother, -⟩ := hopen.frame
      have hsame : r'.slices i = r.slices i := by
        rw [hfill.others i hij, hother i hij, armed_slices]
      rw [hsame] at hi
      refine SlotStep.same hi hsame ?_
      rw [hsame]
      refine if_neg fun heq => ?_
      rw [hd] at heq
      have hno : (r.slices i).sliceNo = s := (Option.some.inj heq).symm
      -- two slots would be in use for the slice
      rcases hopen.slot with ⟨-, hno', hfree⟩ | ⟨hnew, -⟩
      · rw [armed_slices] at hno' hfree
        exact hij (hc.unique i j (by simp [hi]) hfree (hno.trans hno'.symm))
      · rw [findSlice_congr (armed_slices r now)] at hnew
        exact findSlice_none hnew i (by simp [hi]) hno
  | @complete j r₁ hphase hfin =>
    obtain ⟨hother, hself, -⟩ := hfin.frame
    have hij : i ≠ j := fun hij => by
      have hi' : (r₁.slices i).state = .receiving := hi
      rw [hij, hself] at hi'
      cases hi'
    have hsame : r₁.slices i = r.slices i := hother i hij
    have hi' : (r₁.slices i).state = .receiving := hi
    rw [hsame] at hi'
    exact SlotStep.same hi' hsame rfl
  | @scan now _ =>
    have hsame : (scanEnd r now).slices = r.slices := by
      rw [scanEnd]
      split
      · rfl
      · split
        · rfl
        · rfl
    rw [hsame] at hi
    exact SlotStep.same hi (by rw [hsame]) rfl
  | write _ hw =>
    obtain ⟨_, _, rfl⟩ := writeBlock_frame hw
    exact SlotStep.same hi rfl rfl
  | writeConsumed _ _ => exact SlotStep.same hi rfl rfl
  | writeProduced _ _ => exact SlotStep.same hi rfl rfl

end Step

/-! ### The list of packets and the slot -/

section Tracks

variable {stripes blocks stripe : ℕ} {c : List UInt8} {i : Fin 8} {r r' : Receiver}
  {l l' : List Datagram}

/-- The parity blocks of a stripe in the order of their arrival. -/
def parityIn (stripes : ℕ) (l : List Datagram) (stripe : ℕ) : List ℕ :=
  (parityOf l).filter fun no => no % stripes = stripe

/-- The data blocks of a stripe that have not arrived. -/
def missingIn (stripes blocks : ℕ) (l : List Datagram) (stripe : ℕ) : List ℕ :=
  (stripeIndices blocks stripes stripe).filter fun k => k ∉ blocksOf l

/-- As many parity blocks have arrived as data blocks have not, and the first of them differ. -/
def FirstDiffer (stripes blocks : ℕ) (l : List Datagram) (stripe : ℕ) : Prop :=
  (missingIn stripes blocks l stripe).length ≤ (parityIn stripes l stripe).length ∧
    ((parityIn stripes l stripe).take (missingIn stripes blocks l stripe).length).Nodup

theorem FirstDiffer.append (h : FirstDiffer stripes blocks l stripe) (l' : List Datagram) :
    FirstDiffer stripes blocks (l ++ l') stripe := by
  have hle : (missingIn stripes blocks (l ++ l') stripe).length
      ≤ (missingIn stripes blocks l stripe).length := by
    refine (List.monotone_filter_right _ fun k hk => ?_).length_le
    rw [decide_eq_true_iff, blocksOf_append, Finset.mem_union, not_or] at hk
    exact decide_eq_true hk.1
  have hparity : parityIn stripes (l ++ l') stripe
      = parityIn stripes l stripe ++ parityIn stripes l' stripe := by
    rw [parityIn, parityOf_append, List.filter_append, parityIn, parityIn]
  refine ⟨?_, ?_⟩
  · rw [hparity, List.length_append]
    have := h.1
    omega
  · rw [hparity, List.take_append_of_le_length (hle.trans h.1)]
    exact h.2.sublist (List.take_sublist_take_left hle)

/-- The slot has the parity blocks and the data blocks that have arrived, and besides whole stripes
that have been recovered. -/
structure Tracks (stripes blocks : ℕ) (l : List Datagram) (slice : Slice) : Prop where
  nos : slice.fecBlockNos = parityOf l
  arrived : blocksOf l ⊆ Bitmap.bits slice.retransmitMap
  recovered : ∀ k ∈ Bitmap.bits slice.retransmitMap, k ∉ blocksOf l →
    0 < stripes ∧ FirstDiffer stripes blocks l (k % stripes) ∧
      ∀ j ∈ stripeIndices blocks stripes (k % stripes), j ∈ Bitmap.bits slice.retransmitMap

theorem Tracks.congr {slice slice' : Slice} (h : Tracks stripes blocks l slice)
    (hmap : slice'.retransmitMap = slice.retransmitMap) (hnos : slice'.fecBlockNos = slice.fecBlockNos)
    (hb : blocksOf l' = blocksOf l) (hp : parityOf l' = parityOf l) :
    Tracks stripes blocks l' slice' := by
  refine ⟨by rw [hnos, hp, h.nos], by rw [hb, hmap]; exact h.arrived, fun k hk hnot => ?_⟩
  rw [hmap] at hk ⊢
  rw [hb] at hnot
  obtain ⟨hpos, hfirst, hall⟩ := h.recovered k hk hnot
  refine ⟨hpos, ?_, hall⟩
  rw [FirstDiffer, missingIn, parityIn, hb, hp]
  exact hfirst

theorem tracks_claimed {slice : Slice} (hmap : slice.retransmitMap = 0)
    (hnos : slice.fecBlockNos = []) : Tracks stripes blocks [] slice where
  nos := hnos
  arrived := Finset.empty_subset _
  recovered k hk _ := by
    rw [hmap, Bitmap.bits_zero] at hk
    exact absurd hk (Finset.notMem_empty k)

/-- Without parity blocks, or if they are ignored, nothing is recovered. -/
theorem Tracks.bits_eq {slice : Slice} (h : Tracks stripes blocks l slice)
    (hnone : 0 < stripes → parityOf l = [])
    (hle : Bitmap.bits slice.retransmitMap ⊆ Finset.range blocks) :
    Bitmap.bits slice.retransmitMap = blocksOf l := by
  refine Finset.Subset.antisymm (fun k hk => ?_) h.arrived
  by_contra hnot
  obtain ⟨hpos, ⟨hmissing, -⟩, -⟩ := h.recovered k hk hnot
  rw [parityIn, hnone hpos, List.filter_nil, List.length_nil, Nat.le_zero,
    List.length_eq_zero_iff] at hmissing
  have hmem := mem_stripeIndices_mod hpos (Finset.mem_range.mp (hle hk))
  have hk' : k ∈ missingIn stripes blocks l (k % stripes) :=
    List.mem_filter.mpr ⟨hmem, decide_eq_true hnot⟩
  rw [hmissing] at hk'
  exact List.not_mem_nil hk'

theorem recovers_iff_firstDiffer {slice : Slice} (hnos : slice.fecBlockNos = parityOf l')
    (hstripes : slice.fecStripes = stripes)
    (hlen : slice.fecBlockNos.length = slice.fecBlocks.length)
    (hbits : ∀ k ∈ stripeIndices blocks stripes stripe,
      k ∈ Bitmap.bits slice.retransmitMap ↔ k ∈ blocksOf l') :
    Recovers slice blocks stripe ↔ FirstDiffer stripes blocks l' stripe := by
  have hneeded : needed slice blocks stripe = (missingIn stripes blocks l' stripe).length := by
    rw [needed, length_erasedIn, hstripes, missingIn]
    refine congrArg List.length (List.filter_congr fun k hk => ?_)
    simp only [hbits k hk]
  rw [recovers_iff_nos hlen, hneeded, hstripes, hnos, FirstDiffer, parityIn]

theorem Tracks.outcome {d : Datagram} {r₁ : Receiver}
    (hblocks : blocks = blocksIn r₁.blockSize c.length)
    (h : Tracks stripes blocks l (r₁.slices i)) (hout : Outcome stripes c i d r₁ r') :
    Tracks stripes blocks (l ++ [d]) (r'.slices i) := by
  have hb : blocksOf (l ++ [d]) = blocksOf l ∪ d.blockNos.toFinset := by
    rw [blocksOf_append, blocksOf_singleton]
  have hp : parityOf (l ++ [d]) = parityOf l ++ d.parityNos := by
    rw [parityOf_append, parityOf_singleton]
  cases hout with
  | @known k hd hno hset =>
    refine ⟨by rw [hp, hno, List.append_nil, h.nos], ?_, fun m hm hnot => ?_⟩
    · rw [hb, hd]
      refine Finset.union_subset h.arrived fun m hm => ?_
      rw [List.mem_toFinset, List.mem_singleton] at hm
      rw [hm, Bitmap.mem_bits, hset]
    · rw [hb, Finset.mem_union, not_or] at hnot
      obtain ⟨hpos, hfirst, hall⟩ := h.recovered m hm hnot.1
      exact ⟨hpos, hfirst.append _, hall⟩
  | @stored q₁ q₂ _ h₁ htakes h₂ hadds =>
    have hslices : (settle i (blocksIn r₁.blockSize c.length) q₂).slices = q₂.slices := by
      rw [settle]
      split
      · rfl
      · rfl
    obtain ⟨map, n, m, hslot⟩ := hadds.slot
    have hnos : (q₁.slices i).fecBlockNos = parityOf (l ++ [d]) := by
      rw [htakes.nos, h.nos, hp]
    have hsub : blocksOf (l ++ [d]) ⊆ Bitmap.bits (q₁.slices i).retransmitMap := by
      rw [hb, htakes.bits]
      exact Finset.union_subset_union h.arrived (Finset.Subset.refl _)
    have hold : ∀ k ∈ Bitmap.bits (q₁.slices i).retransmitMap, k ∉ blocksOf (l ++ [d]) →
        0 < stripes ∧ FirstDiffer stripes blocks (l ++ [d]) (k % stripes) ∧
          ∀ j ∈ stripeIndices blocks stripes (k % stripes),
            j ∈ Bitmap.bits (q₁.slices i).retransmitMap := by
      intro k hk hnot
      rw [hb, Finset.mem_union, not_or] at hnot
      rw [htakes.bits] at hk ⊢
      have hk' := (Finset.mem_union.mp hk).resolve_right hnot.2
      obtain ⟨hpos, hfirst, hall⟩ := h.recovered k hk' hnot.1
      exact ⟨hpos, hfirst.append _, fun j hj => Finset.mem_union_left _ (hall j hj)⟩
    rw [hslices]
    refine ⟨by rw [hslot]; exact hnos, ?_, fun k hk hnot => ?_⟩
    · rw [hadds.bits]
      exact hsub.trans Finset.subset_union_left
    rw [hadds.bits] at hk ⊢
    rcases Finset.mem_union.mp hk with hk | hk
    · obtain ⟨hpos, hfirst, hall⟩ := hold k hk hnot
      exact ⟨hpos, hfirst, fun j hj => Finset.mem_union_left _ (hall j hj)⟩
    -- the stripe of `k` has just been recovered
    obtain ⟨hgate, σ, hσ, hrec, hkσ⟩ := mem_added.mp hk
    have hstripes : (q₁.slices i).fecStripes = stripes :=
      h₁.fecStripes.resolve_left fun hh => by omega
    rw [hstripes] at hσ hkσ
    rw [← hblocks] at hrec hkσ hgate
    have hmod := mod_of_mem_stripeIndices hσ hkσ
    rw [hmod]
    refine ⟨by omega, ?_, fun j hj => Finset.mem_union_right _ ?_⟩
    · by_cases hrecovered : ∃ j ∈ stripeIndices blocks stripes σ,
          j ∈ Bitmap.bits (q₁.slices i).retransmitMap ∧ j ∉ blocksOf (l ++ [d])
      · obtain ⟨j, hj, hset, hnew⟩ := hrecovered
        have := (hold j hset hnew).2.1
        rwa [mod_of_mem_stripeIndices hσ hj] at this
      · refine (recovers_iff_firstDiffer hnos hstripes h₁.fecLength fun j hj => ⟨fun hset => ?_,
          fun hj' => hsub hj'⟩).mp hrec
        by_contra hnew
        exact hrecovered ⟨j, hj, hset, hnew⟩
    · rw [← hblocks, mem_added, hstripes]
      exact ⟨hgate, σ, hσ, hrec, hj⟩
  | @complete msg hd _ =>
    subst hd
    refine h.congr ?_ ?_ (by rw [hb]; exact Finset.union_empty _) (by rw [hp]; exact List.append_nil _)
    · rw [emit_slices, learnBytes_slices_self]
    · rw [emit_slices, learnBytes_slices_self]
  | @incomplete msg _ hd _ _ _ =>
    subst hd
    refine h.congr ?_ ?_ (by rw [hb]; exact Finset.union_empty _) (by rw [hp]; exact List.append_nil _)
    · rw [emit_slices, learnBytes_slices_self]
    · rw [emit_slices, learnBytes_slices_self]

/-- A packet leaves no stripe untried. -/
theorem Tried.outcome {d : Datagram} {r₁ : Receiver}
    (hblocks : blocks = blocksIn r₁.blockSize c.length) (h : Tried blocks (r₁.slices i))
    (hout : Outcome stripes c i d r₁ r') : Tried blocks (r'.slices i) := by
  cases hout with
  | known _ _ _ => exact h
  | @stored q₁ q₂ _ h₁ htakes h₂ hadds =>
    have hslices : (settle i (blocksIn r₁.blockSize c.length) q₂).slices = q₂.slices := by
      rw [settle]
      split
      · rfl
      · rfl
    rw [hslices, hblocks, ← htakes.blockSize]
    rw [← htakes.blockSize] at hadds
    exact tried_of_adds h₁ h₂ hadds
  | complete _ _ =>
    rw [emit_slices, learnBytes_slices_self]
    exact h.congr rfl rfl rfl rfl rfl
  | incomplete _ _ _ _ =>
    rw [emit_slices, learnBytes_slices_self]
    exact h.congr rfl rfl rfl rfl rfl

theorem tried_claimed {slice : Slice} (hpos : 0 < blocks) (hcount : slice.dataBlocksTransferred = 0)
    (hfec : slice.fecBlocks = []) : Tried blocks slice := by
  refine Or.inr (Or.inl ?_)
  rw [hcount, hfec]
  exact hpos

end Tracks

/-! ### The observed machine -/

/-- What holds of a receiver and of the packets that have arrived for its slots. -/
structure Followed (t : Transfer) (stripes : ℕ) (p : Receiver × (Fin 8 → List Datagram)) : Prop where
  reassembles : Reassembles t stripes p.1
  consistent : Consistent p.1
  unnamed : Unnamed p.1
  slots : ∀ i, (p.1.slices i).state = .receiving → 0 < t.size (p.1.slices i).sliceNo →
    Tracks stripes (blocksIn t.blockSize (t.size (p.1.slices i).sliceNo)) (p.2 i) (p.1.slices i) ∧
      Tried (blocksIn t.blockSize (t.size (p.1.slices i).sliceNo)) (p.1.slices i)

section Followed

variable {t : Transfer} {stripes : ℕ} {p p' : Receiver × (Fin 8 → List Datagram)} {a : Action}
  {i : Fin 8}

theorem Followed.length_content (h : Followed t stripes p)
    (hi : (p.1.slices i).state = .receiving) :
    (t.content (p.1.slices i).sliceNo).length = t.size (p.1.slices i).sliceNo :=
  Transfer.length_content (h.reassembles.sized.isSlice i (by simp [hi])).1

theorem Followed.bits_subset (h : Followed t stripes p) (hi : (p.1.slices i).state = .receiving)
    (hsize : 0 < t.size (p.1.slices i).sliceNo) : Bitmap.bits (p.1.slices i).retransmitMap
      ⊆ Finset.range (blocksIn t.blockSize (t.size (p.1.slices i).sliceNo)) := by
  have hsub := (h.reassembles.keeps.holds i hi hsize).bits_subset
  rwa [h.length_content hi, h.reassembles.regions.blockSize] at hsub

/-- Without parity blocks, or if they are ignored, the bits are the blocks that have arrived. -/
theorem Followed.bits_eq (h : Followed t stripes p) (hnone : 0 < stripes → parityOf (p.2 i) = [])
    (hi : (p.1.slices i).state = .receiving) (hsize : 0 < t.size (p.1.slices i).sliceNo) :
    Bitmap.bits (p.1.slices i).retransmitMap = blocksOf (p.2 i) :=
  (h.slots i hi hsize).1.bits_eq hnone (h.bits_subset hi hsize)

theorem followed_start {r₀ : Receiver} (h : Starts t r₀) (stripes : ℕ) :
    Followed t stripes (r₀, fun _ => []) := by
  refine ⟨reassembles_start h stripes, consistent_of_starts h, ?_, ?_⟩
  · obtain ⟨exitWait, late, fifo, rfl, -, -⟩ := h
    exact fun i _ => rfl
  · obtain ⟨exitWait, late, fifo, rfl, -, -⟩ := h
    exact fun i hi => by cases hi

theorem Followed.step (h : Followed t stripes p) (hlt : stripes < 2 ^ 31)
    (hcarried : Carried t stripes a) (halone : ClaimsAlone t p.1 a)
    (hs : Run.observe ReceiveData.step arrivals p a = some p') : Followed t stripes p' := by
  obtain ⟨r, η⟩ := p
  obtain ⟨r', η'⟩ := p'
  obtain ⟨hstep, hsee⟩ := Run.observe_eq_some.mp hs
  simp only at hstep hsee halone
  subst hsee
  have hs' := step_cases hstep
  have hreassembles := h.reassembles.step hlt hcarried halone hs'
  have hchange := hs'.change h.reassembles.used
  refine ⟨hreassembles, h.consistent.change hchange, h.unnamed.change hchange, fun i hi hsize => ?_⟩
  simp only at hi hsize ⊢
  have hblocks : 0 < blocksIn t.blockSize (t.size (r'.slices i).sliceNo) :=
    blocksIn_pos t.blockSize_pos hsize
  have hno₀ : 0 ≤ (r'.slices i).sliceNo :=
    (hreassembles.sized.isSlice i (by simp [hi])).1
  cases slotStep h.reassembles h.consistent h.unnamed hlt hcarried halone hs' hi hsize with
  | same hold hslot hnone =>
    have hno : (r'.slices i).sliceNo = (r.slices i).sliceNo := by rw [hslot]
    rw [hno] at hsize
    obtain ⟨htracks, htried⟩ := h.slots i hold hsize
    rw [arrivals, hnone, if_neg fun hh => hh.2 hold, List.append_nil, hno, hslot]
    exact ⟨htracks.congr rfl rfl rfl rfl, htried.congr rfl rfl rfl rfl rfl⟩
  | seeded hold hslot hnone =>
    rw [arrivals, hnone, if_pos ⟨hi, hold⟩, List.append_nil]
    exact ⟨tracks_claimed (by rw [hslot]; rfl) (by rw [hslot]; rfl),
      tried_claimed hblocks (by rw [hslot]; rfl) (by rw [hslot]; rfl)⟩
  | @packet r₁ d hone hfirst hb _ hholds hout =>
    rw [arrivals, hone]
    have hlen := Transfer.length_content (t := t) hno₀
    rw [← hlen, ← hb]
    rcases hfirst with ⟨hold, hno, hsame⟩ | ⟨hold, base, hnew⟩
    · -- the slot was there
      rw [← hno] at hsize
      obtain ⟨htracks, htried⟩ := h.slots i hold hsize
      simp only at htracks htried
      rw [hno, ← hlen, ← hb, ← hsame] at htracks htried
      rw [if_neg fun hh => hh.2 hold]
      exact ⟨htracks.outcome rfl hout, htried.outcome rfl hout⟩
    · rw [if_pos ⟨hi, hold⟩]
      rw [← hlen, ← hb] at hblocks
      have htracks : Tracks stripes (blocksIn r₁.blockSize (t.content (r'.slices i).sliceNo).length)
          [] (r₁.slices i) := tracks_claimed (by rw [hnew]; rfl) (by rw [hnew]; rfl)
      exact ⟨htracks.outcome rfl hout,
        (tried_claimed hblocks (by rw [hnew]; rfl) (by rw [hnew]; rfl)).outcome rfl hout⟩

end Followed

end Udpcast.ReceiveData
