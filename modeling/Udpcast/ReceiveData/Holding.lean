import Udpcast.ReceiveData.Regions
import Udpcast.ReceiveData.Slots

/-!
# What the slots hold over a run

On the packets of a transfer, with a slot for a data slice claimed only when no other data slice is
being received, the slot of a data slice holds what has arrived of it, and `complete_slice` is
called in the handler that stores the last block.
-/

namespace Udpcast.ReceiveData

open Receiver

/-! ### Packets -/

/-- The packets that arrive carry blocks of the transfer, parity blocks only if it has whole blocks
or single shorter ones. -/
def Carried (t : Transfer) (stripes : ℕ) : Action → Prop
  | .receive _ _ d => t.Carries stripes d ∧ (d.parityNos ≠ [] → t.Whole)
  | _ => True

theorem Carried.genuine {t : Transfer} {stripes : ℕ} {a : Action} (h : Carried t stripes a) :
    Genuine t a := by
  cases a with
  | receive top now d => exact Transfer.Carries.describes h.1
  | seed => trivial
  | expire _ => trivial
  | complete => trivial
  | scan _ => trivial
  | write => trivial
  | writeConsumed => trivial
  | writeProduced => trivial

/-! ### One packet -/

/-- What the handler of a packet does with the slot of its slice. -/
inductive Outcome (stripes : ℕ) (c : List UInt8) (i : Fin 8) (d : Datagram) (r : Receiver) :
    Receiver → Prop
  | known {k : ℕ} : d.blockNos = [k] → d.parityNos = [] →
      (r.slices i).retransmitMap.getLsbD k = true → Outcome stripes c i d r r
  | stored {r₁ r₂ : Receiver} : d.isReqack = false → Holds stripes c i r₁ →
      Takes i d.blockNos.toFinset d.parityNos r r₁ →
      Holds stripes c i r₂ → Adds i (added (r₁.slices i) (blocksIn r.blockSize c.length)) r₁ r₂ →
      Outcome stripes c i d r (settle i (blocksIn r.blockSize c.length) r₂)
  | complete {msg : Reqack} : d = .reqack msg →
      blocksIn r.blockSize c.length ≤ (r.slices i).dataBlocksTransferred →
      Outcome stripes c i d r
        { (r.learnBytes i msg.bytes).emit (.ok msg.sliceNo) with phase := .completing i }
  | incomplete {msg : Reqack} {map : Bitmap} : d = .reqack msg → msg.bytes = c.length →
      (r.slices i).dataBlocksTransferred < blocksIn r.blockSize c.length →
      (∀ k, map.getLsbD k = (decide (k < blocksIn r.blockSize c.length)
        && (r.slices i).retransmitMap.getLsbD k)) →
      Outcome stripes c i d r
        ((r.learnBytes i msg.bytes).emit (.retransmit msg.sliceNo msg.rxmit map))

theorem Holds.outcome {t : Transfer} {stripes : ℕ} {i : Fin 8} {r r' : Receiver} {d : Datagram}
    {s b : ℤ} (h : Holds stripes (t.content s) i r) (hlt : stripes < 2 ^ 31)
    (hb : r.blockSize = t.blockSize) (hd : d.slice = some (s, b)) (hcarry : t.Carries stripes d)
    (hwhole : d.parityNos ≠ [] → t.Whole) (hf : fill r i d = some r') :
    Outcome stripes (t.content s) i d r r' := by
  have hslice := hcarry.describes.isSlice hd
  have hlen := Transfer.length_content (t := t) hslice.1
  have hbytes : b = (t.content s).length := by rw [hlen, hslice.2.2]
  cases d with
  | data msg payload =>
    obtain ⟨rfl, rfl⟩ := Prod.mk.inj (Option.some.inj hd)
    cases hset : (r.slices i).retransmitMap.getLsbD msg.blockNo with
    | true =>
      have hsame : r' = r := by
        simp only [fill, ReceiveData.receiveBlock] at hf
        rw [if_pos hset, ite_self, ite_self] at hf
        exact (Option.some.inj hf).symm
      rw [hsame]
      exact Outcome.known rfl rfl hset
    | false =>
      have hpayload : payload = blockOf r.blockSize (t.content msg.sliceNo) msg.blockNo := by
        rw [hb]
        exact hcarry.2
      obtain ⟨r₁, r₂, heq, h₁, htakes, h₂, hadds⟩ := h.receiveBlock hbytes
        (by rw [hlen, hb]; exact hcarry.1.2) hpayload hset
      rw [fill, heq] at hf
      obtain rfl := Option.some.inj hf
      exact Outcome.stored rfl h₁ htakes h₂ hadds
  | fec msg payload =>
    obtain ⟨rfl, rfl⟩ := Prod.mk.inj (Option.some.inj hd)
    obtain ⟨-, hstripes, hparity⟩ := hcarry
    have hmem := Transfer.content_mem h.size_pos
    obtain ⟨r₁, r₂, heq, h₁, htakes, h₂, hadds⟩ := h.receiveFec hlt hbytes hstripes
      (by rw [hb]; exact hwhole (by simp [Datagram.parityNos]) _ hmem) (by rw [hb]; exact hparity)
    rw [fill, heq] at hf
    obtain rfl := Option.some.inj hf
    exact Outcome.stored rfl h₁ htakes h₂ hadds
  | reqack msg =>
    obtain ⟨rfl, rfl⟩ := Prod.mk.inj (Option.some.inj hd)
    rw [fill] at hf
    rcases h.answerReqack hbytes with ⟨hfull, heq⟩ | ⟨hmissing, map, hmap, heq⟩
    · rw [heq] at hf
      obtain rfl := Option.some.inj hf
      exact Outcome.complete rfl hfull
    · rw [heq] at hf
      obtain rfl := Option.some.inj hf
      exact Outcome.incomplete rfl hbytes hmissing hmap
  | skipped => cases hd
  | unexpected => cases hd

/-! ### The invariant -/

/-- All blocks of the slice of slot `i` are set. -/
def Full (t : Transfer) (i : Fin 8) (r : Receiver) : Prop :=
  Bitmap.bits (r.slices i).retransmitMap
    = Finset.range (blocksIn t.blockSize (t.size (r.slices i).sliceNo))

/-- The slots of data slices hold what has arrived, and `complete_slice` is about to run for one
when all of it has. -/
structure Keeps (t : Transfer) (stripes : ℕ) (r : Receiver) : Prop where
  counted : ∀ i, (r.slices i).dataBlocksTransferred
    = (Bitmap.bits (r.slices i).retransmitMap).card
  holds : ∀ i, (r.slices i).state = .receiving → 0 < t.size (r.slices i).sliceNo →
    Holds stripes (t.content (r.slices i).sliceNo) i r
  completing : ∀ i, (r.slices i).state = .receiving → 0 < t.size (r.slices i).sliceNo →
    (r.phase = .completing i ↔ Full t i r)

section Invariant

variable {t : Transfer} {stripes : ℕ} {r r' : Receiver} {i : Fin 8}

theorem Full.congr (h : r'.slices i = r.slices i) : Full t i r' ↔ Full t i r := by
  rw [Full, Full, h]

theorem Keeps.congr (h : Keeps t stripes r)
    (hs : ∀ i, (r'.slices i).state = .receiving → 0 < t.size (r'.slices i).sliceNo →
      r'.slices i = r.slices i ∧ (r'.phase = .completing i ↔ r.phase = .completing i))
    (hc : ∀ i, (r'.slices i).dataBlocksTransferred
      = (Bitmap.bits (r'.slices i).retransmitMap).card)
    (hb : r'.blockSize = r.blockSize) (hN : r'.fifo.dataBufSize = r.fifo.dataBufSize)
    (hbuf : r'.fifo.buffer = r.fifo.buffer) : Keeps t stripes r' where
  counted := hc
  holds i hi hsize := by
    obtain ⟨hsame, -⟩ := hs i hi hsize
    rw [hsame] at hi hsize ⊢
    exact (h.holds i hi hsize).congr hsame hb hN hbuf
  completing i hi hsize := by
    obtain ⟨hsame, hp⟩ := hs i hi hsize
    rw [hp, Full.congr hsame]
    rw [hsame] at hi hsize
    exact h.completing i hi hsize

theorem Keeps.control (h : Keeps t stripes r) (hs : r'.slices = r.slices)
    (hb : r'.blockSize = r.blockSize) (hN : r'.fifo.dataBufSize = r.fifo.dataBufSize)
    (hbuf : r'.fifo.buffer = r.fifo.buffer)
    (hp : ∀ i, r'.phase = .completing i ↔ r.phase = .completing i) : Keeps t stripes r' :=
  h.congr (fun i _ _ => ⟨by rw [hs], hp i⟩) (fun i => by rw [hs]; exact h.counted i) hb hN hbuf

theorem answerReqack_frame {msg : Reqack} (h : answerReqack r i msg = some r') :
    (∃ trace phase, r' = { r.learnBytes i msg.bytes with trace := trace, phase := phase }) ∧
      (r'.phase = r.phase ∨ r'.phase = .completing i) := by
  simp only [answerReqack, Option.bind_eq_bind, Option.bind_eq_some_iff] at h
  obtain ⟨blocks, -, h⟩ := h
  split at h
  · obtain rfl := Option.some.inj h
    exact ⟨⟨_, _, rfl⟩, Or.inr rfl⟩
  · obtain ⟨map, -, h⟩ := Option.bind_eq_some_iff.mp h
    obtain rfl := Option.some.inj h
    exact ⟨⟨_, _, rfl⟩, Or.inl rfl⟩

theorem Outcome.keeps {c : List UInt8} {d : Datagram} {r₁ : Receiver}
    (h : Outcome stripes c i d r₁ r') (hr : Holds stripes c i r₁)
    (hmissing : Bitmap.bits (r₁.slices i).retransmitMap
      ≠ Finset.range (blocksIn r₁.blockSize c.length)) (hphase : r₁.phase = .scanning) :
    Holds stripes c i r' ∧ (r'.phase = .completing i ↔ Bitmap.bits (r'.slices i).retransmitMap
      = Finset.range (blocksIn r₁.blockSize c.length)) := by
  have hphase' : r₁.phase ≠ .completing i := by
    rw [hphase]
    simp
  cases h with
  | known _ _ _ => exact ⟨hr, iff_of_false hphase' hmissing⟩
  | @stored q₁ q₂ _ h₁ htakes h₂ hadds =>
    have hb : q₂.blockSize = r₁.blockSize := hadds.blockSize.trans htakes.blockSize
    have hp : q₂.phase ≠ .completing i := by
      rw [hadds.phase, htakes.phase]
      exact hphase'
    have hfull := h₂.full_iff
    rw [hb] at hfull
    rw [settle]
    split
    · rename_i hle
      exact ⟨h₂.congr rfl rfl rfl rfl, iff_of_true rfl (hfull.mp hle)⟩
    · rename_i hle
      exact ⟨h₂, iff_of_false hp fun hh => hle (hfull.mpr hh)⟩
  | complete _ hle => exact absurd (hr.full_iff.mp hle) hmissing
  | incomplete _ hbytes _ _ =>
    refine ⟨(hr.learnBytes hbytes).congr rfl rfl rfl rfl, iff_of_false hphase' ?_⟩
    rw [emit_slices, learnBytes_slices_self]
    exact hmissing

theorem Keeps.armed (h : Keeps t stripes r) {now : ℕ} (hphase : r.phase = .polling) :
    Keeps t stripes (armed r now) := by
  obtain ⟨_, harmed⟩ := armed_frame r now
  rw [harmed]
  exact h.control rfl rfl rfl rfl fun i => by simp [hphase]

theorem blocksIn_pos {bs n : ℕ} (hbs : 0 < bs) (hn : 0 < n) : 0 < blocksIn bs n := by
  rw [lt_blocksIn hbs, Nat.zero_mul]
  exact hn

theorem Keeps.opened {q r₁ : Receiver} {c : Option (Fin 8)} {s b : ℤ} (h : Keeps t stripes q)
    (hregions : Regions t q) (hslice : t.IsSlice s b) (hphase : ∀ j, q.phase ≠ .completing j)
    (hopen : Opened q c s i r₁) : Keeps t stripes r₁ := by
  obtain ⟨hother, -, hb₁, hfifo₁, -⟩ := hopen.frame
  have hp := hopen.not_completing hphase
  rcases hopen.slot with ⟨rfl, -, -⟩ | ⟨-, -, -, hself, -⟩
  · exact h
  obtain ⟨C, D, F, hq, -⟩ := hregions.queues
  have hbs : r₁.blockSize = t.blockSize := hb₁.trans hregions.blockSize
  have hempty : Bitmap.bits (r₁.slices i).retransmitMap = ∅ := by
    rw [hself]
    exact Bitmap.bits_zero
  refine ⟨fun j => ?_, fun j hj hsize => ?_, fun j hj hsize => ?_⟩
  · by_cases hji : j = i
    · rw [hji, hempty, hself]
      rfl
    · rw [hother j hji]
      exact h.counted j
  · by_cases hji : j = i
    · subst hji
      have hno := hopen.sliceNo
      have hlen := Transfer.length_content (t := t) hslice.1
      have hle := t.size_le s
      rw [hno] at hsize ⊢
      refine Holds.claimed hself (by rw [hbs]; exact t.blockSize_pos)
        (by rw [hbs]; exact t.blockSize_lt) ?_ (by rwa [hlen]) (by rw [hlen, hbs]; exact hle)
      rw [hfifo₁, hb₁, hq.size]
    · have hsame := hother j hji
      rw [hsame] at hj hsize ⊢
      exact (h.holds j hj hsize).congr hsame hb₁ (by rw [hfifo₁]) (by rw [hfifo₁])
  · refine iff_of_false (hp j) ?_
    by_cases hji : j = i
    · subst hji
      rw [Full, hempty]
      intro heq
      have hblocks := blocksIn_pos t.blockSize_pos hsize
      rw [eq_comm, Finset.range_eq_empty_iff] at heq
      omega
    · have hsame := hother j hji
      rw [Full.congr hsame]
      rw [hsame] at hj hsize
      exact fun hfull => hphase j ((h.completing j hj hsize).mpr hfull)

theorem Keeps.filled {r₁ : Receiver} {d : Datagram} {s b : ℤ} (h : Keeps t stripes r₁)
    (hlt : stripes < 2 ^ 31) (hd : d.slice = some (s, b))
    (hcarry : t.Carries stripes d) (hwhole : d.parityNos ≠ [] → t.Whole)
    (hphase : r₁.phase = .scanning) (hno : (r₁.slices i).sliceNo = s) (hb : r₁.blockSize = t.blockSize)
    (hf : fill r₁ i d = some r') (hfill : Filled (asUsize b) i r₁ r')
    (hnot : d.isReqack = false → (r₁.slices i).state ≠ .receiving → r' = r₁)
    (hregions : Regions t r') : Keeps t stripes r' := by
  have hslice := hcarry.describes.isSlice hd
  by_cases hdata : (r₁.slices i).state = .receiving ∧ 0 < t.size s
  · obtain ⟨hi, hsize⟩ := hdata
    have hlen := Transfer.length_content (t := t) hslice.1
    have hholds := h.holds i hi (by rwa [hno])
    have hmissing : ¬ Full t i r₁ := fun hfull => by
      have := (h.completing i hi (by rwa [hno])).mpr hfull
      rw [hphase] at this
      cases this
    rw [Full, hno, ← hlen, ← hb] at hmissing
    rw [hno] at hholds
    obtain ⟨hholds', hiff⟩ := (hholds.outcome hlt hb hd hcarry hwhole hf).keeps hholds
      hmissing hphase
    -- no other data slice is being received
    have halone : ∀ j, (r'.slices j).state = .receiving → 0 < t.size (r'.slices j).sliceNo → j = i :=
      fun j hj hjs => hregions.alone j i hj (by rw [hfill.state, hi]) hjs
        (by rw [hfill.sliceNo, hno]; exact hsize)
    have hno' : (r'.slices i).sliceNo = s := by rw [hfill.sliceNo, hno]
    refine ⟨fun j => ?_, fun j hj hjs => ?_, fun j hj hjs => ?_⟩
    · by_cases hji : j = i
      · rw [hji]
        exact hholds'.counted
      · rw [hfill.others j hji]
        exact h.counted j
    · rw [halone j hj hjs, hno']
      exact hholds'
    · rw [halone j hj hjs, hiff, Full, hno', ← hlen, hb]
  · -- the slot is done or for the end marker, and only a REQACK changes it
    cases hreq : d.isReqack with
    | false =>
      have hsize := Transfer.Describes.size_pos hcarry.describes hd hreq
      rw [hnot hreq fun hi => hdata ⟨hi, hsize⟩]
      exact h
    | true =>
      obtain ⟨msg, rfl⟩ : ∃ msg, d = .reqack msg := by
        cases d with
        | reqack msg => exact ⟨msg, rfl⟩
        | data _ _ => cases hreq
        | fec _ _ => cases hreq
        | skipped => cases hreq
        | unexpected => cases hreq
      obtain ⟨⟨trace, phase, hr'⟩, hp⟩ := answerReqack_frame hf
      have hself : r'.slices i
          = { r₁.slices i with bytes := asUsize msg.bytes, bytesKnown := true } := by
        rw [hr']
        exact learnBytes_slices_self ..
      refine h.congr (fun j hj hjs => ?_) (fun j => ?_) hfill.blockSize (by rw [hr']; rfl)
        (by rw [hr']; rfl)
      · have hji : j ≠ i := fun hji => by
          rw [hji, hfill.state] at hj
          rw [hji, hfill.sliceNo, hno] at hjs
          exact hdata ⟨hj, hjs⟩
        refine ⟨hfill.others j hji, ?_⟩
        rcases hp with hp | hp
        · rw [hp]
        · rw [hp, hphase]
          simp [Ne.symm hji]
      · by_cases hji : j = i
        · rw [hji, hself]
          exact h.counted i
        · rw [hfill.others j hji]
          exact h.counted j

theorem Keeps.learnBytes {s b : ℤ} (h : Keeps t stripes r) (hslice : t.IsSlice s b)
    (hno : (r.slices i).sliceNo = s) : Keeps t stripes (r.learnBytes i b) := by
  have hlen := Transfer.length_content (t := t) hslice.1
  have hsame : ∀ j, ((r.learnBytes i b).slices j).state = (r.slices j).state ∧
      ((r.learnBytes i b).slices j).sliceNo = (r.slices j).sliceNo ∧
      ((r.learnBytes i b).slices j).retransmitMap = (r.slices j).retransmitMap ∧
      ((r.learnBytes i b).slices j).dataBlocksTransferred
        = (r.slices j).dataBlocksTransferred := by
    intro j
    by_cases hji : j = i
    · rw [hji, learnBytes_slices_self]
      exact ⟨rfl, rfl, rfl, rfl⟩
    · rw [Receiver.learnBytes, modify_slices_of_ne _ _ _ hji]
      exact ⟨rfl, rfl, rfl, rfl⟩
  refine ⟨fun j => ?_, fun j hj hjs => ?_, fun j hj hjs => ?_⟩
  · rw [(hsame j).2.2.1, (hsame j).2.2.2]
    exact h.counted j
  · rw [(hsame j).1] at hj
    rw [(hsame j).2.1] at hjs ⊢
    have hholds := h.holds j hj hjs
    by_cases hji : j = i
    · rw [hji] at hholds ⊢
      rw [hno] at hholds ⊢
      exact hholds.learnBytes (by rw [hslice.2.2, hlen])
    · exact hholds.congr (modify_slices_of_ne _ _ _ hji) rfl rfl rfl
  · rw [(hsame j).1] at hj
    rw [(hsame j).2.1] at hjs
    rw [Full, (hsame j).2.1, (hsame j).2.2.1]
    exact h.completing j hj hjs

theorem Finished.frame (h : Finished r i r') : (∀ j, j ≠ i → r'.slices j = r.slices j) ∧
    r'.slices i = { r.slices i with state := .done } ∧ r'.blockSize = r.blockSize ∧
      r'.fifo.dataBufSize = r.fifo.dataBufSize ∧ r'.fifo.buffer = r.fifo.buffer := by
  cases h with
  | already hdone => exact ⟨fun _ _ => rfl, by rw [← hdone], rfl, rfl, rfl⟩
  | data _ _ _ _ _ _ _ =>
    exact ⟨fun j hj => finishSlot_slices_of_ne r hj, finishSlot_slices_self r i, rfl, rfl, rfl⟩
  | atEnd _ _ _ _ =>
    exact ⟨fun j hj => finishSlot_slices_of_ne r hj, finishSlot_slices_self r i, rfl, rfl, rfl⟩
  | incomplete _ _ _ _ =>
    exact ⟨fun j hj => finishSlot_slices_of_ne r hj, finishSlot_slices_self r i, rfl, rfl, rfl⟩

/-- What holds between the actions of a receiver on the packets of a transfer. -/
structure Reassembles (t : Transfer) (stripes : ℕ) (r : Receiver) : Prop where
  regions : Regions t r
  sized : Sized t r
  used : CompletingUsed r
  keeps : Keeps t stripes r

theorem Reassembles.step {a : Action} (h : Reassembles t stripes r)
    (hlt : stripes < 2 ^ 31) (hcarried : Carried t stripes a) (halone : ClaimsAlone t r a)
    (hs : StepTo r a r') : Reassembles t stripes r' := by
  have hregions := h.regions.step h.sized h.used halone hs
  refine ⟨hregions, h.sized.step h.used hcarried.genuine hs, hs.completingUsed h.used, ?_⟩
  have hkeeps := h.keeps
  cases hs with
  | seeded hphase => exact hkeeps.control rfl rfl rfl rfl fun i => by simp [hphase]
  | seedNoSlot hphase _ => exact hkeeps.control rfl rfl rfl rfl fun i => by simp [hphase]
  | @seed s b x rest i r₁ hphase hopen =>
    have hslice := h.sized.late _ hphase _ List.mem_cons_self
    have h₁ := hkeeps.opened h.regions hslice (fun j => by simp [hphase]) hopen
    have hp : ∀ j, (r₁.learnBytes i b).phase ≠ .completing j :=
      hopen.not_completing fun j => by simp [hphase]
    exact (h₁.learnBytes hslice hopen.sliceNo).control rfl rfl rfl rfl fun j =>
      iff_of_false (by simp) (hp j)
  | expire hphase _ _ => exact hkeeps.control rfl rfl rfl rfl fun i => by simp [hphase]
  | skipped hphase =>
    obtain ⟨_, harmed⟩ := armed_frame r _
    rw [harmed]
    exact hkeeps.control rfl rfl rfl rfl fun i => by simp [hphase]
  | ignored hphase _ _ => exact hkeeps.armed hphase
  | answered hphase _ _ => exact (hkeeps.armed hphase).control rfl rfl rfl rfl fun i => Iff.rfl
  | @handled top now d s b i r₁ r' hphase hd hopen hf hfill hnot _ _ =>
    obtain ⟨_, harmed⟩ := armed_frame r now
    have hregions₀ : Regions t (armed r now) := by
      rw [harmed]
      exact h.regions.congr rfl rfl rfl rfl
    have hslice := hcarried.1.describes.isSlice hd
    have h₁ := (hkeeps.armed hphase).opened hregions₀ hslice (fun j => by simp) hopen
    exact h₁.filled hlt hd hcarried.1 hcarried.2 (hopen.frame.2.1.trans (armed_phase r now))
      hopen.sliceNo (hopen.frame.2.2.1.trans hregions₀.blockSize) hf hfill hnot hregions
  | @complete i r₁ hphase hfin =>
    obtain ⟨hother, hself, hb, hN, hbuf⟩ := hfin.frame
    refine hkeeps.congr (fun j hj hjs => ?_) (fun j => ?_) hb hN hbuf
    · have hji : j ≠ i := fun hji => by
        rw [hji] at hj
        have : (r₁.slices i).state = .receiving := hj
        rw [hself] at this
        cases this
      refine ⟨hother j hji, ?_⟩
      rw [hphase]
      simp [Ne.symm hji]
    · by_cases hji : j = i
      · show (r₁.slices j).dataBlocksTransferred = _
        rw [hji, hself]
        exact hkeeps.counted i
      · show (r₁.slices j).dataBlocksTransferred = _
        rw [hother j hji]
        exact hkeeps.counted j
  | scan hphase =>
    rw [scanEnd]
    split
    · exact hkeeps.control rfl rfl rfl rfl fun i => by simp [hphase]
    · split
      · exact hkeeps.control rfl rfl rfl rfl fun i => by simp [hphase]
      · exact hkeeps.control rfl rfl rfl rfl fun i => by simp [hphase]
  | write hwait hw =>
    obtain ⟨_, _, rfl⟩ := writeBlock_frame hw
    exact hkeeps.control rfl rfl rfl rfl fun i => Iff.rfl
  | writeConsumed hw hq => exact hkeeps.control rfl rfl rfl rfl fun i => Iff.rfl
  | writeProduced hw hq => exact hkeeps.control rfl rfl rfl rfl fun i => Iff.rfl

end Invariant

theorem reassembles_start {t : Transfer} {r : Receiver} (h : Starts t r) (stripes : ℕ) :
    Reassembles t stripes r := by
  have hstart := h
  obtain ⟨exitWait, late, fifo, rfl, -, -⟩ := h
  refine ⟨regions_start hstart, sized_start hstart, completingUsed_of_starts hstart, ?_⟩
  refine ⟨fun i => ?_, fun i hi => ?_, fun i hi => ?_⟩
  · show 0 = (Bitmap.bits 0).card
    rw [Bitmap.bits_zero, Finset.card_empty]
  · cases hi
  · cases hi

end Udpcast.ReceiveData
