import Udpcast.Fec.Bounds
import Udpcast.ReceiveData.Queues
import Udpcast.ReceiveData.Slots

/-!
# Datagrams that the receiver survives

A DATA, FEC or REQACK packet can make a handler abort at once, or leave a slot on which a later call
aborts.  `Fits` are the steps on which nothing goes wrong, in terms of the state before the step.
-/

namespace Udpcast.ReceiveData

open Receiver

/-! ### What fits -/

/-- The decoding of a stripe, for which enough parity blocks have arrived. -/
def StripeFits (blockSize : ℕ) (slice : Slice) (blocks stripe : ℕ) : Prop :=
  let indices := stripeIndices blocks slice.fecStripes stripe
  let erased := erasedIn slice.retransmitMap indices
  let sel := selectFec slice stripe
  erased ≠ [] → erased.length ≤ sel.length →
    Fec.DecodeFits blockSize indices.length (sel.take erased.length) erased

instance (blockSize : ℕ) (slice : Slice) (blocks stripe : ℕ) :
    Decidable (StripeFits blockSize slice blocks stripe) := inferInstanceAs (Decidable (_ → _ → _))

/-- `check_slice_complete` for a slot: the block count does not overflow, and where the recovery is
tried the slice has no more blocks than a map and every stripe can be decoded. -/
def CheckFits (blockSize : ℕ) (slice : Slice) : Prop :=
  let blocks := blocksIn blockSize slice.bytes
  slice.bytesKnown = true → slice.bytes ≠ 0 → slice.bytes + blockSize < 2 ^ 64 ∧
    (slice.dataBlocksTransferred < blocks → 0 < slice.fecStripes → slice.fecBlocks ≠ [] →
      blocks - slice.dataBlocksTransferred ≤ slice.fecBlocks.length →
      blocks ≤ maxSliceSize ∧
        ∀ stripe < slice.fecStripes, StripeFits blockSize slice blocks stripe)

instance (blockSize : ℕ) (slice : Slice) : Decidable (CheckFits blockSize slice) :=
  inferInstanceAs (Decidable (_ → _ → _ ∧ (_ → _ → _ → _ → _ ∧ ∀ _ < _, _)))

/-- A slot with the fields of a DATA packet entered. -/
def Slice.withData (s : Slice) (msg : DataBlock) : Slice :=
  { s with
    bytes := if msg.bytes ≠ 0 then asUsize msg.bytes else s.bytes
    bytesKnown := if msg.bytes ≠ 0 then true else s.bytesKnown
    retransmitMap := Bitmap.insert s.retransmitMap msg.blockNo
    dataBlocksTransferred := s.dataBlocksTransferred + 1
    blocksTransferred := s.blocksTransferred + 1 }

/-- A slot with the fields and the payload of an FEC packet entered. -/
def Slice.withFec (s : Slice) (msg : FecBlock) (payload : List UInt8) : Slice :=
  { s with
    bytes := if msg.bytes ≠ 0 ∧ s.bytesKnown = false then asUsize msg.bytes else s.bytes
    bytesKnown := if msg.bytes ≠ 0 ∧ s.bytesKnown = false then true else s.bytesKnown
    fecStripes := if msg.stripes > 0 then asUsize msg.stripes else s.fecStripes
    fecBlockNos := s.fecBlockNos ++ [msg.blockNo]
    fecBlocks := s.fecBlocks ++ [payload]
    blocksTransferred := s.blocksTransferred + 1 }

/-- The slot a handler works on, if it gets one: the one of the slice, or a new one. -/
def slotFor (r : Receiver) (c : Option (Fin 8)) (sliceNo : ℤ) : Option Slice :=
  match findSlice r c sliceNo with
  | some i => some (r.slices i)
  | none => (freeSlot r).map fun _ =>
    Slice.claimed r.fifo.freeMemQueue.getConsumerPosition sliceNo

def DatagramFits (r : Receiver) : Datagram → Prop
  | .data msg _ => ∀ s ∈ slotFor r r.currentSlice msg.sliceNo, s.state = .receiving →
    msg.blockNo < maxSliceSize → s.retransmitMap.getLsbD msg.blockNo = false →
      CheckFits r.blockSize (s.withData msg)
  | .fec msg payload => ∀ s ∈ slotFor r none msg.sliceNo, s.state ≠ .done →
    CheckFits r.blockSize (s.withFec msg payload)
  | .reqack msg => (findSlice r none msg.sliceNo = none ∧ r.completed msg.sliceNo = true) ∨
    slotFor r none msg.sliceNo = none ∨ asUsize msg.bytes ≤ maxSliceSize * r.blockSize
  | .skipped => True
  | .unexpected => True

instance (r : Receiver) (d : Datagram) : Decidable (DatagramFits r d) :=
  match d with
  | .data _ _ => inferInstanceAs (Decidable (∀ _ ∈ _, _ → _ → _ → _))
  | .fec _ _ => inferInstanceAs (Decidable (∀ _ ∈ _, _ → _))
  | .reqack _ => inferInstanceAs (Decidable (_ ∨ _ ∨ _))
  | .skipped => isTrue trivial
  | .unexpected => isTrue trivial

/-- `complete_slice` for a slot: its slice number is no negative one, and its bytes have room in
`data`. -/
def CompleteFits (r : Receiver) (i : Fin 8) : Prop :=
  (r.slices i).state = .done ∨ 0 ≤ (r.slices i).sliceNo ∧
    r.fifo.data.getWaiting + (r.slices i).bytes ≤ r.fifo.dataBufSize

def Fits (r : Receiver) : Action → Prop
  | .receive _ _ d => DatagramFits r d
  | .complete => ∀ i, r.phase = .completing i → CompleteFits r i
  | _ => True

instance (r : Receiver) (i : Fin 8) : Decidable (CompleteFits r i) :=
  inferInstanceAs (Decidable (_ ∨ _))

instance (r : Receiver) (a : Action) : Decidable (Fits r a) :=
  match a with
  | .receive _ _ d => inferInstanceAs (Decidable (DatagramFits r d))
  | .complete => inferInstanceAs (Decidable (∀ i, r.phase = .completing i → CompleteFits r i))
  | .seed => isTrue trivial
  | .expire _ => isTrue trivial
  | .scan _ => isTrue trivial
  | .write => isTrue trivial
  | .writeConsumed => isTrue trivial
  | .writeProduced => isTrue trivial

/-! ### Aborts -/

/-- The receiver is where it takes the step. -/
def Due (r : Receiver) : Action → Prop
  | .seed => ∃ late, r.phase = .seeding late
  | .receive top _ _ => r.phase = .polling ∧ ∀ deadline ∈ r.drainDeadline, top < deadline
  | .complete => ∃ i, r.phase = .completing i
  | .scan _ => r.phase = .scanning
  | _ => False

/-- `new_slice` waits: it has a slot, and less than 1024 blocks of memory are free. -/
def MemoryShort (r : Receiver) : Prop :=
  freeSlot r ≠ none ∧ r.fifo.freeMemQueue.consume (r.blockSize * maxSliceSize) = none

instance (r : Receiver) : Decidable (MemoryShort r) := inferInstanceAs (Decidable (_ ∧ _))

/-- The step waits for memory. -/
def Waits (r : Receiver) : Action → Prop
  | .seed => ∃ s b x rest, r.phase = .seeding ((s, b, x) :: rest) ∧ findSlice r none s = none ∧
    MemoryShort r
  | .receive _ _ (.data msg _) => findSlice r r.currentSlice msg.sliceNo = none ∧ MemoryShort r
  | .receive _ _ (.fec msg _) => findSlice r none msg.sliceNo = none ∧ MemoryShort r
  | .receive _ _ (.reqack msg) => findSlice r none msg.sliceNo = none ∧
    r.completed msg.sliceNo = false ∧ MemoryShort r
  | _ => False

/-- A step of `spawn_net_receiver` that has no result and does not wait for one. -/
def Aborts (r : Receiver) (a : Action) : Prop := Due r a ∧ ¬Waits r a ∧ step r a = none

/-! ### The recovery -/

section Recovery

variable {r r' : Receiver} {i : Fin 8} {P : ℕ → Prop}

/-- Blocks of a slot have been stored, all of them with `P`. -/
structure Beside (i : Fin 8) (P : ℕ → Prop) (r r' : Receiver) : Prop where
  blockSize : r'.blockSize = r.blockSize
  ringSize : r'.fifo.dataBufSize = r.fifo.dataBufSize
  fecStripes : (r'.slices i).fecStripes = (r.slices i).fecStripes
  fecBlockNos : (r'.slices i).fecBlockNos = (r.slices i).fecBlockNos
  fecBlocks : (r'.slices i).fecBlocks = (r.slices i).fecBlocks
  bits : ∀ k, ¬P k → (r'.slices i).retransmitMap.getLsbD k = (r.slices i).retransmitMap.getLsbD k

theorem Beside.refl (i : Fin 8) (P : ℕ → Prop) (r : Receiver) : Beside i P r r :=
  ⟨rfl, rfl, rfl, rfl, rfl, fun _ _ => rfl⟩

theorem Beside.trans {r₁ : Receiver} (h : Beside i P r r₁) (h' : Beside i P r₁ r') : Beside i P r r' where
  blockSize := h'.blockSize.trans h.blockSize
  ringSize := h'.ringSize.trans h.ringSize
  fecStripes := h'.fecStripes.trans h.fecStripes
  fecBlockNos := h'.fecBlockNos.trans h.fecBlockNos
  fecBlocks := h'.fecBlocks.trans h.fecBlocks
  bits k hk := (h'.bits k hk).trans (h.bits k hk)

theorem erasedIn_congr {m m' : Bitmap} {indices : List ℕ}
    (h : ∀ k ∈ indices, m'.getLsbD k = m.getLsbD k) : erasedIn m' indices = erasedIn m indices := by
  refine List.filter_congr fun j hj => ?_
  have hlt := List.mem_range.mp hj
  rw [List.getD_eq_getElem _ _ hlt, h _ (List.getElem_mem hlt)]

/-- The decoding of one stripe does not touch the others. -/
theorem Beside.stripeFits {bs blocks stripe stripe' : ℕ}
    (h : Beside i (fun k => k % (r.slices i).fecStripes = stripe) r r')
    (hlt : stripe' < (r.slices i).fecStripes) (hne : stripe' ≠ stripe)
    (hfits : StripeFits bs (r.slices i) blocks stripe') : StripeFits bs (r'.slices i) blocks stripe' := by
  have herased : erasedIn (r'.slices i).retransmitMap
        (stripeIndices blocks (r.slices i).fecStripes stripe')
      = erasedIn (r.slices i).retransmitMap (stripeIndices blocks (r.slices i).fecStripes stripe') := by
    refine erasedIn_congr fun k hk => h.bits k fun hmod => hne ?_
    rw [← hmod, mod_of_mem_stripeIndices hlt hk]
  rw [StripeFits] at hfits ⊢
  rw [selectFec, h.fecStripes, h.fecBlockNos, h.fecBlocks, herased]
  exact hfits

theorem storeBlock_ok {k : ℕ} {row : List UInt8} (hsize : r.fifo.dataBufSize = r.blockSize * 4096)
    (hpos : 0 < r.blockSize) (hrow : row.length ≤ r.blockSize) (hk : k < 1024) (hP : P k) :
    ∃ r', storeBlock r i k row = some r' ∧ Beside i P r r' := by
  obtain ⟨r', hstore, hslot, hfifo, hblock, -⟩ :=
    storeBlock_eq (r := r) (i := i) row (by omega) (by omega) hk
  refine ⟨r', hstore, hblock, by rw [hfifo], by rw [hslot], by rw [hslot], by rw [hslot],
    fun m hm => ?_⟩
  have hne : m ≠ k := fun hmk => hm (hmk ▸ hP)
  rw [hslot, Bitmap.getLsbD_insert hk, decide_eq_false hne, Bool.or_false]

theorem stripeBlocks_ok (hsize : r.fifo.dataBufSize = r.blockSize * 4096) (hpos : 0 < r.blockSize)
    {indices : List ℕ} (hlt : ∀ k ∈ indices, k < 1024) :
    ∃ blocks, stripeBlocks r i indices = some blocks ∧
      Fec.Blocks r.blockSize indices.length blocks := by
  have hread := Buffer.mapM_eq_some (l := indices) (f := fun gi => do
      if ← Bitmap.bitIsSet (r.slices i).retransmitMap gi then
        r.fifo.readAt (blockStart r i gi) r.blockSize
      else some (List.replicate r.blockSize 0))
    (g := fun gi => if (r.slices i).retransmitMap.getLsbD gi then
        Ring.window r.fifo.dataBufSize ((r.slices i).base + gi * r.blockSize) r.blockSize r.fifo.buffer
      else List.replicate r.blockSize 0) fun gi hgi => by
    rw [Bitmap.bitIsSet_eq (hlt gi hgi)]
    cases (r.slices i).retransmitMap.getLsbD gi with
    | true => exact Fifo.readAt_eq (by omega) (by omega)
    | false => rfl
  refine ⟨_, hread, List.length_map .., fun b hb => ?_⟩
  obtain ⟨gi, -, rfl⟩ := List.mem_map.mp hb
  split
  · exact Ring.length_window ..
  · exact List.length_replicate

theorem recoverStripe_ok {blocks stripe : ℕ} (hsize : r.fifo.dataBufSize = r.blockSize * 4096)
    (hpos : 0 < r.blockSize) (hblocks : blocks ≤ 1024) (hlt : stripe < (r.slices i).fecStripes)
    (hfits : StripeFits r.blockSize (r.slices i) blocks stripe) :
    ∃ r', recoverStripe i blocks r stripe = some r' ∧
      Beside i (fun k => k % (r.slices i).fecStripes = stripe) r r' := by
  generalize hindices : stripeIndices blocks (r.slices i).fecStripes stripe = indices
  have hmem : ∀ k ∈ indices, k < 1024 ∧ k % (r.slices i).fecStripes = stripe := by
    intro k hk
    rw [← hindices] at hk
    have hk' := (mem_stripeIndices (by omega) hk).1
    exact ⟨by omega, mod_of_mem_stripeIndices hlt hk⟩
  have herased := erasedBlocks_eq (r := r) (i := i) fun k hk => (hmem k hk).1
  rw [StripeFits, hindices] at hfits
  generalize herasedIn : erasedIn (r.slices i).retransmitMap indices = erased at herased hfits
  simp only [recoverStripe, hindices, herased, Option.bind_eq_bind, Option.bind_some]
  by_cases hnone : erased = []
  · rw [if_pos hnone]
    exact ⟨r, rfl, Beside.refl ..⟩
  · rw [if_neg hnone]
    by_cases hfew : (selectFec (r.slices i) stripe).length < erased.length
    · rw [if_pos hfew]
      exact ⟨r, rfl, Beside.refl ..⟩
    · rw [if_neg hfew]
      have hdecode := hfits hnone (by omega)
      have hsorted : erased.Pairwise (· < ·) := by
        rw [← herasedIn]
        exact List.pairwise_lt_range.filter _
      have hposition : ∀ ej ∈ erased, ej < indices.length := fun ej hej => by
        rw [← herasedIn] at hej
        exact (mem_erasedIn.mp hej).1
      obtain ⟨data, hdata, hsizes⟩ := stripeBlocks_ok (i := i) hsize hpos fun k hk => (hmem k hk).1
      obtain ⟨ok, data', hok, hsizes'⟩ := Fec.fecDecode_ok hdecode hsizes
        (by rw [List.length_take]; omega) hsorted hposition
      rw [hdata, Option.bind_some, hok, Option.bind_some]
      dsimp only
      cases ok with
      | false => exact ⟨r, rfl, Beside.refl ..⟩
      | true =>
        rw [if_pos rfl]
        refine Fold.foldlM_exists (P := fun q =>
          Beside i (fun k => k % (r.slices i).fecStripes = stripe) r q) (fun ej hej q hq => ?_)
          (Beside.refl ..)
        have hlen := hposition ej hej
        have hrow := hsizes'.getElem? hlen
        obtain ⟨hk, hmod⟩ := hmem _ (List.getElem_mem hlen)
        obtain ⟨q', hstore, hq'⟩ := storeBlock_ok (i := i) (r := q)
          (P := fun k => k % (r.slices i).fecStripes = stripe)
          (by rw [hq.ringSize, hq.blockSize, hsize]) (by rw [hq.blockSize]; exact hpos)
          (by rw [hsizes'.getD hlen, hq.blockSize]) hk hmod
        refine ⟨q', ?_, hq.trans hq'⟩
        rw [List.getElem?_eq_getElem hlen, hrow]
        exact hstore

theorem recoverStripes_ok {blocks : ℕ} {l : List ℕ} (hblocks : blocks ≤ 1024) (hnodup : l.Nodup)
    (hsize : r.fifo.dataBufSize = r.blockSize * 4096) (hpos : 0 < r.blockSize)
    (hlt : ∀ stripe ∈ l, stripe < (r.slices i).fecStripes)
    (hfits : ∀ stripe ∈ l, StripeFits r.blockSize (r.slices i) blocks stripe) :
    ∃ r', l.foldlM (recoverStripe i blocks) r = some r' ∧ r'.blockSize = r.blockSize := by
  induction l generalizing r with
  | nil => exact ⟨r, rfl, rfl⟩
  | cons stripe l ih =>
    obtain ⟨hnot, hnodup⟩ := List.nodup_cons.mp hnodup
    obtain ⟨r₁, hstep, hbeside⟩ := recoverStripe_ok hsize hpos hblocks
      (hlt stripe List.mem_cons_self) (hfits stripe List.mem_cons_self)
    obtain ⟨r', hloop, hblock⟩ := ih (r := r₁) hnodup
      (by rw [hbeside.ringSize, hbeside.blockSize, hsize]) (by rw [hbeside.blockSize]; exact hpos)
      (fun stripe' hmem => by
        rw [hbeside.fecStripes]
        exact hlt stripe' (List.mem_cons_of_mem _ hmem))
      (fun stripe' hmem => by
        rw [hbeside.blockSize]
        exact hbeside.stripeFits (hlt stripe' (List.mem_cons_of_mem _ hmem))
          (fun heq => hnot (heq ▸ hmem)) (hfits stripe' (List.mem_cons_of_mem _ hmem)))
    refine ⟨r', ?_, hblock.trans hbeside.blockSize⟩
    rw [List.foldlM_cons, hstep]
    exact hloop

theorem blocksInSlice_eq {n : ℕ} (hpos : 0 < r.blockSize) (hn : n + r.blockSize < 2 ^ 64) :
    r.blocksInSlice n = some (blocksIn r.blockSize n) :=
  if_pos ⟨hn, by omega, by omega⟩

theorem checkSliceComplete_ok (hsize : r.fifo.dataBufSize = r.blockSize * 4096)
    (hpos : 0 < r.blockSize) (hfits : CheckFits r.blockSize (r.slices i)) :
    ∃ r', checkSliceComplete r i = some r' := by
  rw [checkSliceComplete]
  by_cases hunknown : (r.slices i).bytesKnown = false ∨ (r.slices i).bytes = 0
  · exact ⟨r, if_pos hunknown⟩
  · obtain ⟨hknown, hbytes⟩ := not_or.mp hunknown
    obtain ⟨hsum, hrecover⟩ := hfits (Bool.eq_true_of_not_eq_false hknown) hbytes
    have hblocks := blocksInSlice_eq hpos hsum
    rw [if_neg hunknown, hblocks]
    by_cases hall : (r.slices i).dataBlocksTransferred ≥ blocksIn r.blockSize (r.slices i).bytes
    · exact ⟨_, if_pos hall⟩
    · by_cases htry : (r.slices i).fecStripes > 0 ∧ (r.slices i).fecBlocks ≠ [] ∧
          (r.slices i).fecBlocks.length
            ≥ blocksIn r.blockSize (r.slices i).bytes - (r.slices i).dataBlocksTransferred
      · obtain ⟨hmax, hstripes⟩ := hrecover (by omega) htry.1 htry.2.1 htry.2.2
        obtain ⟨r₁, hloop, hblock⟩ := recoverStripes_ok (i := i) hmax List.nodup_range hsize hpos
          (fun _ hmem => List.mem_range.mp hmem) fun stripe hmem =>
          hstripes stripe (List.mem_range.mp hmem)
        have htried : ∃ r', tryFecRecover r i = some r' := by
          rw [tryFecRecover, hblocks]
          simp only [Option.bind_eq_bind, Option.bind_some, if_neg htry.1.ne', hloop]
          split
          · exact ⟨_, rfl⟩
          · exact ⟨_, rfl⟩
        obtain ⟨r', hr'⟩ := htried
        refine ⟨r', ?_⟩
        simp only [Option.bind_eq_bind, Option.bind_some]
        rw [if_neg hall, if_pos htry]
        exact hr'
      · refine ⟨r, ?_⟩
        simp only [Option.bind_eq_bind, Option.bind_some]
        rw [if_neg hall, if_neg htry]

end Recovery

/-! ### The handlers -/

section Handlers

variable {r : Receiver} {i : Fin 8}

theorem receiveBlock_ok {msg : DataBlock} {payload : List UInt8}
    (hsize : r.fifo.dataBufSize = r.blockSize * 4096) (hpos : 0 < r.blockSize)
    (hfits : (r.slices i).state = .receiving → msg.blockNo < maxSliceSize →
      (r.slices i).retransmitMap.getLsbD msg.blockNo = false →
      CheckFits r.blockSize ((r.slices i).withData msg)) :
    ∃ r', receiveBlock r i msg payload = some r' := by
  rw [receiveBlock]
  dsimp only
  by_cases hstate : (r.slices i).state = .free ∨ (r.slices i).state = .done
  · exact ⟨r, if_pos hstate⟩
  rw [if_neg hstate]
  by_cases hno : msg.blockNo ≥ maxSliceSize
  · exact ⟨r, if_pos hno⟩
  rw [if_neg hno]
  by_cases hset : (r.slices i).retransmitMap.getLsbD msg.blockNo = true
  · exact ⟨r, if_pos hset⟩
  rw [if_neg hset]
  have hreceiving : (r.slices i).state = .receiving := by
    cases hs : (r.slices i).state with
    | free => exact absurd (Or.inl hs) hstate
    | receiving => rfl
    | done => exact absurd (Or.inr hs) hstate
  have hcheck := hfits hreceiving (by omega) (Bool.eq_false_of_not_eq_true hset)
  generalize hr₁ : (if msg.bytes ≠ 0 then r.learnBytes i msg.bytes else r) = r₁
  have hframe : r₁.fifo = r.fifo ∧ r₁.blockSize = r.blockSize ∧ r₁.slices i = { r.slices i with
      bytes := if msg.bytes ≠ 0 then asUsize msg.bytes else (r.slices i).bytes
      bytesKnown := if msg.bytes ≠ 0 then true else (r.slices i).bytesKnown } := by
    rw [← hr₁]
    by_cases hb : msg.bytes ≠ 0
    · rw [if_pos hb, if_pos hb, if_pos hb]
      exact ⟨rfl, rfl, learnBytes_slices_self ..⟩
    · rw [if_neg hb, if_neg hb, if_neg hb]
      exact ⟨rfl, rfl, rfl⟩
  obtain ⟨hfifo, hblock, hslot⟩ := hframe
  have hrow : (payload.take r₁.blockSize).length ≤ r₁.blockSize := by
    rw [List.length_take]
    exact Nat.min_le_left ..
  obtain ⟨r₂, hstore, hslot₂, hfifo₂, hblock₂, -⟩ := storeBlock_eq (r := r₁) (i := i)
    (k := msg.blockNo) (payload.take r₁.blockSize) (by rw [hfifo]; omega)
    (by rw [hfifo]; rw [hblock] at hrow ⊢; omega) (by rw [maxSliceSize] at hno; omega)
  obtain ⟨r', hr'⟩ := checkSliceComplete_ok (r := r₂) (i := i)
    (by rw [hfifo₂, hblock₂, hblock]; exact (congrArg Fifo.dataBufSize hfifo).trans hsize)
    (by rw [hblock₂, hblock]; exact hpos) (by
      rw [hblock₂, hblock, hslot₂, hslot]
      exact hcheck)
  refine ⟨r', ?_⟩
  simp only [Option.bind_eq_bind]
  rw [hstore]
  exact hr'

theorem receiveFec_ok {msg : FecBlock} {payload : List UInt8}
    (hsize : r.fifo.dataBufSize = r.blockSize * 4096) (hpos : 0 < r.blockSize)
    (hfits : (r.slices i).state ≠ .done →
      CheckFits r.blockSize ((r.slices i).withFec msg payload)) :
    ∃ r', receiveFec r i msg payload = some r' := by
  rw [receiveFec]
  dsimp only
  by_cases hdone : (r.slices i).state = .done
  · exact ⟨r, if_pos hdone⟩
  rw [if_neg hdone]
  have hcheck := hfits hdone
  generalize hr₁ : (if msg.bytes ≠ 0 ∧ (r.slices i).bytesKnown = false
    then r.learnBytes i msg.bytes else r) = r₁
  have hframe : r₁.fifo = r.fifo ∧ r₁.blockSize = r.blockSize ∧ r₁.slices i = { r.slices i with
      bytes := if msg.bytes ≠ 0 ∧ (r.slices i).bytesKnown = false then asUsize msg.bytes
        else (r.slices i).bytes
      bytesKnown := if msg.bytes ≠ 0 ∧ (r.slices i).bytesKnown = false then true
        else (r.slices i).bytesKnown } := by
    rw [← hr₁]
    by_cases hb : msg.bytes ≠ 0 ∧ (r.slices i).bytesKnown = false
    · rw [if_pos hb, if_pos hb, if_pos hb]
      exact ⟨rfl, rfl, learnBytes_slices_self ..⟩
    · rw [if_neg hb, if_neg hb, if_neg hb]
      exact ⟨rfl, rfl, rfl⟩
  obtain ⟨hfifo, hblock, hslot⟩ := hframe
  refine checkSliceComplete_ok ?_ ?_ ?_
  · exact (congrArg Fifo.dataBufSize hfifo).trans (hsize.trans (by rw [← hblock]; rfl))
  · exact hpos.trans_eq hblock.symm
  · rw [modify_slices_self, modify_blockSize, hblock, hslot]
    exact hcheck

theorem answerReqack_ok {msg : Reqack} (hpos : 0 < r.blockSize) (hle : r.blockSize ≤ 1456)
    (hbytes : asUsize msg.bytes ≤ maxSliceSize * r.blockSize) :
    ∃ r', answerReqack r i msg = some r' := by
  rw [maxSliceSize] at hbytes
  have hlearned : ((r.learnBytes i msg.bytes).slices i).bytes = asUsize msg.bytes := by
    rw [learnBytes_slices_self]
  generalize asUsize msg.bytes = bytes at hbytes hlearned
  have hblocks := blocksInSlice_eq (r := r.learnBytes i msg.bytes) (n := bytes) hpos (by
    show bytes + r.blockSize < 2 ^ 64
    norm_num
    omega)
  have hmax : blocksIn r.blockSize bytes ≤ 1024 := by
    by_contra hmore
    have hlt : 1024 * r.blockSize < bytes := (lt_blocksIn hpos).mp (by omega)
    omega
  rw [answerReqack]
  simp only [hlearned, hblocks, Option.bind_eq_bind, Option.bind_some]
  by_cases hall : ((r.learnBytes i msg.bytes).slices i).dataBlocksTransferred
      ≥ blocksIn (r.learnBytes i msg.bytes).blockSize bytes
  · exact ⟨_, if_pos hall⟩
  · rw [if_neg hall]
    obtain ⟨map, hmap, -⟩ := haveMap_spec
      (m := ((r.learnBytes i msg.bytes).slices i).retransmitMap) hmax
    exact ⟨_, by
      rw [show (r.learnBytes i msg.bytes).blockSize = r.blockSize from rfl, hmap]
      rfl⟩

theorem newSlice_ok (h : ¬MemoryShort r) (s : ℤ) :
    (freeSlot r = none ∧ newSlice r s = some none) ∨
      ∃ j, freeSlot r = some j ∧ newSlice r s = some (some (j, claim r j s)) := by
  rw [newSlice]
  cases hfree : freeSlot r with
  | none => exact Or.inl ⟨rfl, rfl⟩
  | some j =>
    cases hready : r.fifo.freeMemQueue.consume (r.blockSize * maxSliceSize) with
    | none => exact absurd ⟨by simp [hfree], hready⟩ h
    | some n => exact Or.inr ⟨j, rfl, rfl⟩

theorem processDataBlock_ok {msg : DataBlock} {payload : List UInt8}
    (hsize : r.fifo.dataBufSize = r.blockSize * 4096) (hpos : 0 < r.blockSize)
    (hready : findSlice r r.currentSlice msg.sliceNo = none → ¬MemoryShort r)
    (hfits : DatagramFits r (.data msg payload)) :
    ∃ r', processDataBlock r msg payload = some r' := by
  rw [processDataBlock]
  cases hfind : findSlice r r.currentSlice msg.sliceNo with
  | some j =>
    have hslot : slotFor r r.currentSlice msg.sliceNo = some (r.slices j) := by rw [slotFor, hfind]
    exact receiveBlock_ok hsize hpos (hfits _ hslot)
  | none =>
    rcases newSlice_ok (hready hfind) _ with ⟨-, hnew⟩ | ⟨j, hfree, hnew⟩
    · exact ⟨r, by rw [hnew]; rfl⟩
    · have hslot : slotFor r r.currentSlice msg.sliceNo
          = some (Slice.claimed r.fifo.freeMemQueue.getConsumerPosition msg.sliceNo) := by
        rw [slotFor, hfind, hfree]
        rfl
      rw [hnew]
      refine receiveBlock_ok (r := { claim r j msg.sliceNo with currentSlice := some j }) hsize hpos ?_
      show ((claim r j msg.sliceNo).slices j).state = _ → _
      rw [show ({ claim r j msg.sliceNo with currentSlice := some j } : Receiver).slices j
        = (claim r j msg.sliceNo).slices j from rfl, claim_slices_self]
      exact hfits _ hslot

theorem openSlice_ok {c : Option (Fin 8)} {s : ℤ} (hready : findSlice r c s = none → ¬MemoryShort r) :
    (slotFor r c s = none ∧ openSlice r c s = some none) ∨
      ∃ j r₁, openSlice r c s = some (some (j, r₁)) ∧ slotFor r c s = some (r₁.slices j) ∧
        r₁.blockSize = r.blockSize ∧ r₁.fifo = r.fifo := by
  rw [openSlice, slotFor]
  cases hfind : findSlice r c s with
  | some j => exact Or.inr ⟨j, r, rfl, rfl, rfl, rfl⟩
  | none =>
    rcases newSlice_ok (hready hfind) _ with ⟨hfree, hnew⟩ | ⟨j, hfree, hnew⟩
    · exact Or.inl ⟨by rw [hfree]; rfl, hnew⟩
    · refine Or.inr ⟨j, claim r j s, hnew, ?_, rfl, rfl⟩
      rw [hfree, claim_slices_self]
      rfl

theorem processFecBlock_ok {msg : FecBlock} {payload : List UInt8}
    (hsize : r.fifo.dataBufSize = r.blockSize * 4096) (hpos : 0 < r.blockSize)
    (hready : findSlice r none msg.sliceNo = none → ¬MemoryShort r)
    (hfits : DatagramFits r (.fec msg payload)) :
    ∃ r', processFecBlock r msg payload = some r' := by
  rw [processFecBlock]
  rcases openSlice_ok hready with ⟨-, hopen⟩ | ⟨j, r₁, hopen, hslot, hblock, hfifo⟩
  · exact ⟨r, by rw [hopen]; rfl⟩
  · rw [hopen]
    refine receiveFec_ok (r := r₁) ?_ ?_ ?_
    · rw [hfifo, hblock, hsize]
    · rw [hblock]
      exact hpos
    · rw [hblock]
      exact hfits _ hslot

theorem processReqack_ok {msg : Reqack} (hpos : 0 < r.blockSize) (hle : r.blockSize ≤ 1456)
    (hready : findSlice r none msg.sliceNo = none → r.completed msg.sliceNo = false →
      ¬MemoryShort r)
    (hfits : DatagramFits r (.reqack msg)) : ∃ r', processReqack r msg = some r' := by
  have hanswer : ∀ j r₁, slotFor r none msg.sliceNo = some (r₁.slices j) →
      ¬(findSlice r none msg.sliceNo = none ∧ r.completed msg.sliceNo = true) →
      r₁.blockSize = r.blockSize → ∃ r', answerReqack r₁ j msg = some r' := by
    intro j r₁ hslot hnew hblock
    rcases hfits with hdone | hnone | hbytes
    · exact absurd hdone hnew
    · rw [hnone] at hslot
      cases hslot
    · exact answerReqack_ok (hblock ▸ hpos) (hblock ▸ hle) (hblock ▸ hbytes)
  rw [processReqack]
  cases hfind : findSlice r none msg.sliceNo with
  | some j =>
    exact hanswer j r (by rw [slotFor, hfind]) (fun h => by rw [hfind] at h; cases h.1) rfl
  | none =>
    dsimp only
    by_cases hdone : r.completed msg.sliceNo = true
    · exact ⟨_, if_pos hdone⟩
    · rw [if_neg hdone]
      rcases newSlice_ok (hready hfind (Bool.eq_false_of_not_eq_true hdone)) _ with ⟨-, hnew⟩ | ⟨j, hfree, hnew⟩
      · exact ⟨_, by rw [hnew]; rfl⟩
      · rw [hnew]
        refine hanswer j (claim r j msg.sliceNo) ?_ (fun h => hdone h.2) rfl
        rw [slotFor, hfind, hfree, claim_slices_self]
        rfl

end Handlers

/-! ### The invariant -/

/-- What the arithmetic of the handlers rests on. -/
structure InBounds (r : Receiver) : Prop where
  blockSize_pos : 0 < r.blockSize
  blockSize_le : r.blockSize ≤ 1456
  size : r.fifo.dataBufSize = r.blockSize * 4096
  freeSize : r.fifo.freeMemQueue.size = r.fifo.dataBufSize
  dataSize : r.fifo.data.size = r.fifo.dataBufSize
  free : r.fifo.freeMemQueue.inner.produced < 2 * r.fifo.dataBufSize ∧
    r.fifo.freeMemQueue.inner.consumed < 2 * r.fifo.dataBufSize
  data : ∃ C D, r.fifo.data.Counts C D ∧ ∀ n, r.writer = .written n → D + n ≤ C
  base : ∀ i, (r.slices i).base < r.fifo.dataBufSize

section Runs

variable {r r' : Receiver} {a : Action}

namespace InBounds

theorem pos (h : InBounds r) : 0 < r.fifo.dataBufSize := by
  have hpos := h.blockSize_pos
  rw [h.size]
  omega

theorem congr (h : InBounds r) (hblock : r'.blockSize = r.blockSize)
    (hfifo : ∃ buffer, r'.fifo = { r.fifo with buffer := buffer }) (hwriter : r'.writer = r.writer)
    (hbase : ∀ i, (r'.slices i).base < r.fifo.dataBufSize) : InBounds r' := by
  obtain ⟨buffer, hfifo⟩ := hfifo
  exact
    { blockSize_pos := by rw [hblock]; exact h.blockSize_pos
      blockSize_le := by rw [hblock]; exact h.blockSize_le
      size := by rw [hfifo, hblock]; exact h.size
      freeSize := by rw [hfifo]; exact h.freeSize
      dataSize := by rw [hfifo]; exact h.dataSize
      free := by rw [hfifo]; exact h.free
      data := by rw [hfifo, hwriter]; exact h.data
      base := by rw [hfifo]; exact hbase }

theorem opened {c : Option (Fin 8)} {s : ℤ} {i : Fin 8} (h : InBounds r) (hopen : Opened r c s i r') :
    InBounds r' := by
  obtain ⟨hothers, -, hblock, hfifo, hwriter, -⟩ := hopen.frame
  refine h.congr hblock ⟨r.fifo.buffer, hfifo⟩ hwriter fun j => ?_
  by_cases hj : j = i
  · subst hj
    rcases hopen.slot with ⟨rfl, -, -⟩ | ⟨-, -, -, hslot, -⟩
    · exact h.base j
    · rw [hslot]
      show r.fifo.freeMemQueue.inner.consumed % r.fifo.freeMemQueue.size < _
      rw [h.freeSize]
      exact Nat.mod_lt _ h.pos
  · rw [hothers j hj]
    exact h.base j

theorem filled {b : ℕ} {i : Fin 8} (h : InBounds r) (hfill : Filled b i r r') : InBounds r' := by
  obtain ⟨_, _, _, _, hrest⟩ := hfill.rest
  refine h.congr hfill.blockSize hfill.fifo (by rw [hrest]) fun j => ?_
  rw [hfill.slot_base]
  exact h.base j

theorem completed {i : Fin 8} (h : InBounds r) (hfin : Finished r i r') (hfits : CompleteFits r i) :
    InBounds r' := by
  obtain ⟨C, D, hc, hwritten⟩ := h.data
  have hbase : ∀ j, ((finishSlot r i).slices j).base < r.fifo.dataBufSize := by
    intro j
    by_cases hj : j = i
    · subst hj
      rw [finishSlot_slices_self]
      exact h.base j
    · rw [finishSlot_slices_of_ne r hj]
      exact h.base j
  cases hfin with
  | already _ => exact h
  | data freeMemQueue data hne hno hbytes hfree hdata =>
    rcases hfits with hdone | ⟨-, hroom⟩
    · exact absurd hdone hne
    rw [hc.getWaiting, ← h.dataSize] at hroom
    obtain ⟨data', hdata', hc', -, hsize⟩ := hc.produce_eq hroom
    rw [hdata] at hdata'
    obtain rfl := Option.some.inj hdata'
    obtain ⟨hsize', hproduced, hwithin⟩ := Produconsum.consumed_within hfree
      (by rw [h.freeSize]; exact h.free.2)
    exact
      { blockSize_pos := h.blockSize_pos
        blockSize_le := h.blockSize_le
        size := h.size
        freeSize := hsize'.trans h.freeSize
        dataSize := hsize.trans h.dataSize
        free := ⟨hproduced.trans_lt h.free.1, hwithin.trans_eq (congrArg (2 * ·) h.freeSize)⟩
        data := ⟨_, D, hc', fun n hn => (hwritten n hn).trans (Nat.le_add_right _ _)⟩
        base := hbase }
  | atEnd _ _ _ _ =>
    exact ⟨h.blockSize_pos, h.blockSize_le, h.size, h.freeSize, h.dataSize, h.free,
      ⟨C, D, hc.produceEnd, hwritten⟩, hbase⟩
  | incomplete _ _ _ _ =>
    exact ⟨h.blockSize_pos, h.blockSize_le, h.size, h.freeSize, h.dataSize, h.free,
      ⟨C, D, hc, hwritten⟩, hbase⟩

theorem completeSlice_ok {i : Fin 8} (h : InBounds r) (hfits : CompleteFits r i) :
    ∃ r', completeSlice r i = some r' := by
  obtain ⟨C, D, hc, -⟩ := h.data
  rw [completeSlice]
  dsimp only
  by_cases hdone : (r.slices i).state = .done
  · exact ⟨r, if_pos hdone⟩
  rw [if_neg hdone]
  obtain ⟨hno, hroom⟩ := hfits.resolve_left hdone
  rw [if_neg (Int.not_lt.mpr hno)]
  rw [hc.getWaiting, ← h.dataSize] at hroom
  have hdeliver : ∀ q : Receiver, q.fifo = r.fifo →
      ∃ q', deliver q (r.slices i).sliceNo (r.slices i).bytes = some q' := by
    intro q hq
    rw [deliver, hq]
    split
    · obtain ⟨data, hdata, -⟩ := hc.produce_eq hroom
      have hsmall : ¬(r.slices i).bytes > 2 * r.fifo.freeMemQueue.size := by
        rw [h.freeSize, ← h.dataSize]
        omega
      rw [Produconsum.consumed, if_neg hsmall, hdata]
      split
      · exact ⟨_, rfl⟩
      · exact ⟨_, rfl⟩
    · split
      · exact ⟨_, rfl⟩
      · exact ⟨_, rfl⟩
  obtain ⟨q', hq'⟩ := hdeliver (finishSlot r i) rfl
  show ∃ r', (deliver (finishSlot r i) _ _).bind _ = some r'
  rw [hq']
  exact ⟨_, rfl⟩

theorem write (h : InBounds r) (hw : writeBlock r = some r') : InBounds r' := by
  obtain ⟨C, D, hc, -⟩ := h.data
  obtain ⟨m, hm, hs⟩ := Option.bind_eq_some_iff.mp hw
  obtain ⟨hmC, -, -, -⟩ := hc.consumeContiguousMinAmount hm
  have hle := hc.le
  dsimp only at hs
  split at hs
  · obtain rfl := Option.some.inj hs
    exact ⟨h.blockSize_pos, h.blockSize_le, h.size, h.freeSize, h.dataSize, h.free,
      ⟨C, D, hc, fun n hn => by cases hn⟩, h.base⟩
  · obtain ⟨buf, -, hs⟩ := Option.bind_eq_some_iff.mp hs
    generalize hn : (if r.fifo.data.getConsumerPosition + m ≠ r.fifo.data.size ∧
        m > (r.fifo.data.getConsumerPosition + m) % ioBlockSize ∧
        (r.fifo.data.getConsumerPosition + m) % ioBlockSize ≠ 0
      then m - (r.fifo.data.getConsumerPosition + m) % ioBlockSize else m) = n at hs
    have hnm : n ≤ m := by
      rw [← hn]
      split
      · omega
      · exact le_rfl
    obtain rfl := Option.some.inj hs
    refine ⟨h.blockSize_pos, h.blockSize_le, h.size, h.freeSize, h.dataSize, h.free,
      ⟨C, D, hc, fun k hk => ?_⟩, h.base⟩
    cases hk
    omega

theorem step (h : InBounds r) (hs : StepTo r a r') (hfits : Fits r a) : InBounds r' := by
  have harmed : ∀ now, InBounds (armed r now) := fun now => by
    obtain ⟨_, heq⟩ := armed_frame r now
    rw [heq]
    exact h.congr rfl ⟨r.fifo.buffer, rfl⟩ rfl h.base
  have hphase : ∀ {q : Receiver} (p : Phase), InBounds q → InBounds { q with phase := p } :=
    fun {q} p hq => hq.congr rfl ⟨q.fifo.buffer, rfl⟩ rfl hq.base
  cases hs with
  | seeded _ => exact hphase _ h
  | seedNoSlot _ _ => exact hphase _ h
  | @seed s b x rest i r₁ _ hopen => exact hphase _ ((h.opened hopen).filled (Filled.learnBytes i r₁ b))
  | expire _ _ _ => exact hphase _ h
  | skipped _ => exact hphase _ (harmed _)
  | ignored _ _ _ => exact harmed _
  | answered _ _ _ => exact (harmed _).congr rfl ⟨_, rfl⟩ rfl (harmed _).base
  | handled _ _ hopen _ hfill _ _ _ => exact ((harmed _).opened hopen).filled hfill
  | complete hp hfin => exact hphase _ (h.completed hfin (hfits _ hp))
  | scan _ =>
    rw [scanEnd]
    split
    · exact hphase _ h
    · split
      · exact h.congr rfl ⟨r.fifo.buffer, rfl⟩ rfl h.base
      · exact hphase _ h
  | write _ hw => exact h.write hw
  | @writeConsumed n q hw hq =>
    obtain ⟨C, D, hc, hwritten⟩ := h.data
    obtain ⟨q', hq', hc', -, hsize⟩ := hc.consumed_eq (hwritten n hw)
    rw [hq] at hq'
    obtain rfl := Option.some.inj hq'
    exact ⟨h.blockSize_pos, h.blockSize_le, h.size, h.freeSize, hsize.trans h.dataSize, h.free,
      ⟨C, D + n, hc', fun k hk => by cases hk⟩, h.base⟩
  | @writeProduced n q hw hq =>
    obtain ⟨C, D, hc, -⟩ := h.data
    obtain ⟨hsize, hconsumed, hwithin⟩ :=
      Produconsum.produce_within hq (by rw [h.freeSize]; exact h.free.1)
    exact ⟨h.blockSize_pos, h.blockSize_le, h.size, hsize.trans h.freeSize, h.dataSize,
      ⟨hwithin.trans_eq (by rw [h.freeSize]), hconsumed.trans_lt h.free.2⟩,
      ⟨C, D, hc, fun k hk => by cases hk⟩, h.base⟩

theorem not_aborts (h : InBounds r) (hfits : Fits r a) : ¬Aborts r a := by
  rintro ⟨hdue, hwaits, hnone⟩
  cases a with
  | seed =>
    obtain ⟨late, hlate⟩ := hdue
    cases late with
    | nil => simp [Udpcast.ReceiveData.step, seedSlice, hlate] at hnone
    | cons slice rest =>
      obtain ⟨s, b, x⟩ := slice
      have hready : findSlice r none s = none → ¬MemoryShort r := fun hfind hshort =>
        hwaits ⟨s, b, x, rest, hlate, hfind, hshort⟩
      simp only [Udpcast.ReceiveData.step, seedSlice, hlate] at hnone
      rcases openSlice_ok hready with ⟨-, hopen⟩ | ⟨j, r₁, hopen, -⟩
      · rw [hopen] at hnone
        cases hnone
      · rw [hopen] at hnone
        cases hnone
  | expire now => exact hdue
  | receive top now d =>
    have hpolling : r.phase = .polling ∧ ∀ deadline ∈ r.drainDeadline, top < deadline := hdue
    have hdispatch : receiveDatagram r top now d = none := hnone
    rw [receiveDatagram, if_pos hpolling] at hdispatch
    have harmed : { (if r.endReached then { r with drainDeadline := some (now + r.exitWait) } else r)
        with phase := .scanning } = armed r now := by
      rw [armed]
      split
      · rfl
      · rfl
    obtain ⟨deadline, hframe⟩ := armed_frame r now
    rw [hframe] at harmed
    have hsize := h.size
    cases d with
    | data msg payload =>
      rw [dispatch, harmed] at hdispatch
      obtain ⟨r', hr'⟩ := processDataBlock_ok
        (r := { r with drainDeadline := deadline, phase := .scanning }) h.size h.blockSize_pos
        (fun hfind hshort => hwaits ⟨hfind, hshort⟩) hfits
      rw [hr'] at hdispatch
      cases hdispatch
    | fec msg payload =>
      rw [dispatch, harmed] at hdispatch
      obtain ⟨r', hr'⟩ := processFecBlock_ok
        (r := { r with drainDeadline := deadline, phase := .scanning }) h.size h.blockSize_pos
        (fun hfind hshort => hwaits ⟨hfind, hshort⟩) hfits
      rw [hr'] at hdispatch
      cases hdispatch
    | reqack msg =>
      rw [dispatch, harmed] at hdispatch
      obtain ⟨r', hr'⟩ := processReqack_ok
        (r := { r with drainDeadline := deadline, phase := .scanning }) h.blockSize_pos
        h.blockSize_le (fun hfind hdone hshort => hwaits ⟨hfind, hdone, hshort⟩) hfits
      rw [hr'] at hdispatch
      cases hdispatch
    | skipped => cases hdispatch
    | unexpected => cases hdispatch
  | complete =>
    obtain ⟨i, hi⟩ := hdue
    obtain ⟨r', hr'⟩ := h.completeSlice_ok (hfits i hi)
    simp [Udpcast.ReceiveData.step, hi, hr'] at hnone
  | scan now =>
    have hscanning : r.phase = .scanning := hdue
    simp [Udpcast.ReceiveData.step, hscanning] at hnone
  | write => exact hdue
  | writeConsumed => exact hdue
  | writeProduced => exact hdue

end InBounds

theorem inBounds_start {blockSize exitWait : ℕ} {late : List (ℤ × ℤ × ℤ)} {fifo : Fifo}
    (hlow : 4 ≤ blockSize) (hhigh : blockSize ≤ 1456) (hnew : Fifo.new blockSize = some fifo) :
    InBounds (Receiver.start blockSize exitWait late fifo) := by
  have hpos : 0 < blockSize := by omega
  rw [Fifo.new_eq hpos] at hnew
  obtain rfl := Option.some.inj hnew
  obtain ⟨-, hdata⟩ := Fifo.fresh_counts hpos
  have hsize : 0 < blockSize * 4096 := by omega
  exact
    { blockSize_pos := hpos
      blockSize_le := hhigh
      size := rfl
      freeSize := rfl
      dataSize := rfl
      free := by
        show blockSize * 4096 < 2 * (blockSize * 4096) ∧ 0 < 2 * (blockSize * 4096)
        omega
      data := ⟨0, 0, hdata, fun n hn => by cases hn⟩
      base := fun i => hsize }

end Runs

/-- As long as every step fits, no handler aborts. -/
theorem spawn_net_receiver_survives (blockSize exitWait : ℕ) (late : List (ℤ × ℤ × ℤ))
    (hlow : 4 ≤ blockSize) (hhigh : blockSize ≤ 1456) (fifo : Fifo)
    (hnew : Fifo.new blockSize = some fifo) (r : Receiver)
    (hreach : Run.Reach step Fits (Receiver.start blockSize exitWait late fifo) r) :
    InBounds r ∧ ∀ a, Fits r a → ¬Aborts r a := by
  have hbounds := hreach.invariant (inBounds_start hlow hhigh hnew) fun s a s' hs hfits hstep =>
    hs.step (step_cases hstep) hfits
  exact ⟨hbounds, fun a hfits => hbounds.not_aborts hfits⟩

/-- A slice of two blocks: its size, its first block, and a parity block with this payload. -/
def twoBlocksParity (payload : List UInt8) : List Action :=
  [.seed, .receive 0 0 (.reqack ⟨0, 8, 0⟩), .scan 0, .receive 0 0 (.data ⟨0, 0, 8⟩ [1, 2, 3, 4]),
    .scan 0, .receive 0 0 (.fec ⟨1, 0, 0, 8⟩ payload)]

/-- The slice is recovered, and `complete_slice` does not abort. -/
theorem spawn_net_receiver_survives_parity : ∃ r : Receiver, r.phase = .completing 0 ∧
    InBounds r ∧ ¬Aborts r .complete := by
  have hnew : Fifo.new 4 = some (Fifo.fresh 4) := Fifo.new_eq (by norm_num)
  have hexec : (Run.exec step Fits (Receiver.start 4 0 [] (Fifo.fresh 4))
      (twoBlocksParity [5, 6, 7, 8])).map
        (fun r => decide (r.phase = .completing 0 ∧ Fits r .complete)) = some true := by
    decide +kernel
  obtain ⟨r, hreach, hr⟩ := Run.exists_reach_of_exec hexec
  obtain ⟨hphase, hfits⟩ := of_decide_eq_true hr
  obtain ⟨hbounds, hsurvives⟩ := spawn_net_receiver_survives 4 0 [] (by norm_num) (by norm_num) _
    hnew r hreach
  exact ⟨r, hphase, hbounds, hsurvives _ hfits⟩

/-- The sum with the size -1 overflows; and the parity block of one byte is read past its end. -/
theorem spawn_net_receiver_crashes : Fifo.new 4 = some (Fifo.fresh 4) ∧
    (∃ r, Run.Reach step (fun _ _ => True) (Receiver.start 4 0 [] (Fifo.fresh 4)) r ∧
      Aborts r (.receive 0 0 (.reqack ⟨0, -1, 0⟩))) ∧
    ∃ r, Run.Reach step (fun _ _ => True) (Receiver.start 4 0 [] (Fifo.fresh 4)) r ∧
      Aborts r (.receive 0 0 (.fec ⟨1, 0, 0, 8⟩ [5])) := by
  have haborts : ∀ (l : List Action) (d : Datagram),
      ((Run.exec step (fun _ _ => True) (Receiver.start 4 0 [] (Fifo.fresh 4)) l).map fun r =>
        decide ((r.phase = .polling ∧ r.drainDeadline = none) ∧ ¬MemoryShort r ∧
          (step r (.receive 0 0 d)).isNone = true)) = some true →
      ∃ r, Run.Reach step (fun _ _ => True) (Receiver.start 4 0 [] (Fifo.fresh 4)) r ∧
        Aborts r (.receive 0 0 d) := by
    intro l d h
    obtain ⟨r, hreach, hr⟩ := Run.exists_reach_of_exec h
    obtain ⟨⟨hphase, hdeadline⟩, hmemory, hnone⟩ := of_decide_eq_true hr
    refine ⟨r, hreach, ⟨hphase, fun deadline hmem => ?_⟩, fun hwaits => hmemory ?_,
      Option.isNone_iff_eq_none.mp hnone⟩
    · rw [hdeadline] at hmem
      cases hmem
    · cases d with
      | data _ _ => exact hwaits.2
      | fec _ _ => exact hwaits.2
      | reqack _ => exact hwaits.2.2
      | skipped => exact hwaits.elim
      | unexpected => exact hwaits.elim
  exact ⟨Fifo.new_eq (by norm_num), haborts [.seed] _ (by decide +kernel),
    haborts ((twoBlocksParity []).take 5) _ (by decide +kernel)⟩

end Udpcast.ReceiveData
