import Udpcast.ReceiveData.Arrivals
import Udpcast.ReceiveData.Deliveries

/-!
# Reassembly of a slice from its blocks

Without parity blocks the bits that are set are the blocks that have arrived.
-/

namespace Udpcast.ReceiveData

open Receiver

/-- DATA packets with blocks of the transfer and REQACKs arrive. -/
def Plain (t : Transfer) : Action → Prop
  | .receive _ _ d => t.Carries 1 d ∧ d.parityNos = []
  | _ => True

/-- Slot `i` is not given to another slice than `s`. -/
def Stays (i : Fin 8) (s : ℤ) (r : Receiver) (a : Action) : Prop :=
  ∀ r', step r a = some r' → (r'.slices i).sliceNo = s

instance (t : Transfer) : (a : Action) → Decidable (Plain t a)
  | .receive _ _ (.data msg payload) => inferInstanceAs (Decidable ((t.Describes (.data msg payload) ∧
      payload = blockOf t.blockSize (t.content msg.sliceNo) msg.blockNo) ∧ [] = []))
  | .receive _ _ (.fec _ _) => isFalse fun h => by cases h.2
  | .receive _ _ (.reqack msg) =>
    inferInstanceAs (Decidable (t.Describes (.reqack msg) ∧ [] = []))
  | .receive _ _ .skipped | .receive _ _ .unexpected => inferInstanceAs (Decidable (True ∧ [] = []))
  | .seed | .expire _ | .complete | .scan _ | .write | .writeConsumed | .writeProduced =>
    inferInstanceAs (Decidable True)

instance (i : Fin 8) (s : ℤ) (r : Receiver) (a : Action) : Decidable (Stays i s r a) :=
  inferInstanceAs (Decidable (∀ r' ∈ step r a, (r'.slices i).sliceNo = s))

section Reassembly

variable {t : Transfer} {stripes : ℕ} {r r' : Receiver} {a : Action} {i : Fin 8}
  {arrived : Fin 8 → List Datagram}

theorem Plain.carried (h : Plain t a) : Carried t 1 a := by
  cases a with
  | receive top now d => exact ⟨h.1, fun hne => absurd h.2 hne⟩
  | seed => trivial
  | expire _ => trivial
  | complete => trivial
  | scan _ => trivial
  | write => trivial
  | writeConsumed => trivial
  | writeProduced => trivial

theorem Plain.parityOf_arrivedFor (h : Plain t a) (s : ℤ) : parityOf (arrivedFor a s) = [] := by
  cases a with
  | receive top now d =>
    rw [arrivedFor]
    split
    · rw [parityOf_singleton, h.2]
    · rfl
  | seed => rfl
  | expire _ => rfl
  | complete => rfl
  | scan _ => rfl
  | write => rfl
  | writeConsumed => rfl
  | writeProduced => rfl

theorem Plain.parityOf_arrivals (h : Plain t a) (hnone : ∀ i, parityOf (arrived i) = [])
    (r r' : Receiver) (i : Fin 8) : parityOf (arrivals r a r' arrived i) = [] := by
  rw [arrivals, parityOf_append, h.parityOf_arrivedFor, List.append_nil]
  split
  · rfl
  · exact hnone i

theorem Reassembles.complete (h : Reassembles t stripes r) (hi : (r.slices i).state = .receiving)
    (hsize : 0 < t.size (r.slices i).sliceNo) (hphase : r.phase = .completing i) :
    ∃ r', ReceiveData.step r .complete = some r' ∧ (r'.slices i).state = .done ∧
      r.fifo.data.produce (t.size (r.slices i).sliceNo) = some r'.fifo.data ∧
      delivered r'.trace = delivered r.trace ++ [(r.slices i).sliceNo] := by
  obtain ⟨C, D, F, hq, hslots⟩ := h.regions.queues
  obtain ⟨-, hroom⟩ := hslots i hi hsize
  have hle := hq.le
  have hbytes := h.sized.bytes_receiving hi
  have hno := (h.sized.isSlice i (by simp [hi])).1
  have hfits := t.size_le (r.slices i).sliceNo
  rw [← h.regions.blockSize] at hfits
  obtain ⟨q₁, hq₁, -⟩ := hq.free.consumed_eq (n := (r.slices i).bytes) (by omega)
  obtain ⟨q₂, hq₂, -⟩ := hq.data.produce_eq (n := (r.slices i).bytes) (by rw [hq.dataSize]; omega)
  have hcomplete : completeSlice r i = some ({ finishSlot r i with
      fifo.freeMemQueue := q₁, fifo.data := q₂ }.emit (.ok (r.slices i).sliceNo)) := by
    have hdeliver : deliver (finishSlot r i) (r.slices i).sliceNo (r.slices i).bytes
        = some { finishSlot r i with fifo.freeMemQueue := q₁, fifo.data := q₂ } := by
      rw [deliver, if_pos (by omega)]
      exact Option.bind_eq_some_iff.mpr ⟨q₁, hq₁, Option.bind_eq_some_iff.mpr ⟨q₂, hq₂, rfl⟩⟩
    rw [completeSlice]
    simp only
    rw [if_neg (by simp [hi]), if_neg (by omega)]
    exact Option.bind_eq_some_iff.mpr ⟨_, hdeliver, rfl⟩
  refine ⟨_, by rw [ReceiveData.step, hphase]; simp only; rw [hcomplete]; rfl, ?_, ?_, ?_⟩
  · show ((finishSlot r i).slices i).state = .done
    rw [finishSlot_slices_self]
  · rw [← hbytes]
    exact hq₂
  · show delivered (r.trace ++ [_] ++ [_]) = _
    rw [List.append_assoc]
    exact (delivered_completed ..).trans (by rw [if_pos (by omega)])

/-- The state of the slots of data slices, in terms of the packets that have arrived, and what the
receiver does with them next. -/
structure Reassembled (t : Transfer) (r : Receiver) (arrived : Fin 8 → List Datagram) : Prop where
  counted : ∀ i, (r.slices i).dataBlocksTransferred = (Bitmap.bits (r.slices i).retransmitMap).card
  stored : ∀ i, (r.slices i).state = .receiving → 0 < t.size (r.slices i).sliceNo →
    Bitmap.bits (r.slices i).retransmitMap = blocksOf (arrived i) ∧
      ∀ k ∈ blocksOf (arrived i), k * t.blockSize < t.size (r.slices i).sliceNo ∧
        Ring.window r.fifo.dataBufSize ((r.slices i).base + k * t.blockSize)
            (min t.blockSize (t.size (r.slices i).sliceNo - k * t.blockSize)) r.fifo.buffer
          = blockOf t.blockSize (t.content (r.slices i).sliceNo) k
  completing : ∀ i, (r.slices i).state = .receiving → 0 < t.size (r.slices i).sliceNo →
    (r.phase = .completing i ↔
      blocksOf (arrived i) = Finset.range (blocksIn t.blockSize (t.size (r.slices i).sliceNo)))
  complete : ∀ i, (r.slices i).state = .receiving → 0 < t.size (r.slices i).sliceNo →
    r.phase = .completing i →
      Ring.window r.fifo.dataBufSize (r.slices i).base (t.size (r.slices i).sliceNo) r.fifo.buffer
        = t.content (r.slices i).sliceNo ∧
      ∃ r', step r .complete = some r' ∧ (r'.slices i).state = .done ∧
        r.fifo.data.produce (t.size (r.slices i).sliceNo) = some r'.fifo.data ∧
        delivered r'.trace = delivered r.trace ++ [(r.slices i).sliceNo]
  answered : ∀ i top now msg r', t.Describes (.reqack msg) →
    ClaimsAlone t r (.receive top now (.reqack msg)) →
    step r (.receive top now (.reqack msg)) = some r' →
    (r'.slices i).state = .receiving → (r'.slices i).sliceNo = msg.sliceNo →
    0 < t.size msg.sliceNo →
      ∃ map, r'.trace.getLast? = some (.retransmit msg.sliceNo msg.rxmit map) ∧
        ∀ k < blocksIn t.blockSize (t.size msg.sliceNo), (map.getLsbD k = true ↔
          k ∈ blocksOf (arrivals r (.receive top now (.reqack msg)) r' arrived i))

theorem phase_of_receive {top now : ℕ} {d : Datagram}
    (h : step r (.receive top now d) = some r') : r.phase = .polling := by
  rw [step, receiveDatagram] at h
  split at h
  · rename_i hready
    exact hready.1
  · cases h

section Followed

variable {p : Receiver × (Fin 8 → List Datagram)}

theorem Followed.not_full (h : Followed t stripes p) {top now : ℕ} {d : Datagram} {r₁ : Receiver}
    (hs : ReceiveData.step p.1 (.receive top now d) = some r') {s : ℤ} (hsize : 0 < t.size s)
    (hfirst : (p.1.slices i).state = .receiving ∧ (p.1.slices i).sliceNo = s ∧
        r₁.slices i = p.1.slices i ∨ (p.1.slices i).state ≠ .receiving ∧
      ∃ base, r₁.slices i = Slice.claimed base s) :
    Bitmap.bits (r₁.slices i).retransmitMap
      ≠ Finset.range (blocksIn t.blockSize (t.size s)) := by
  intro hfull
  rcases hfirst with ⟨hi, rfl, hsame⟩ | ⟨-, base, hnew⟩
  · rw [hsame] at hfull
    have hphase := (h.reassembles.keeps.completing i hi hsize).mpr hfull
    rw [phase_of_receive hs] at hphase
    cases hphase
  · have hblocks := blocksIn_pos t.blockSize_pos hsize
    have hempty : Bitmap.bits (r₁.slices i).retransmitMap = ∅ := by
      rw [hnew]
      exact Bitmap.bits_zero
    rw [hempty, eq_comm, Finset.range_eq_empty_iff] at hfull
    omega

/-- A REQACK for a slice that is being received asks for the blocks that are missing. -/
theorem Followed.answered (h : Followed t 1 p) (hnone : ∀ i, parityOf (p.2 i) = [])
    {top now : ℕ} {msg : Reqack} (hd : t.Describes (.reqack msg))
    (halone : ClaimsAlone t p.1 (.receive top now (.reqack msg)))
    (hs : ReceiveData.step p.1 (.receive top now (.reqack msg)) = some r')
    (hi : (r'.slices i).state = .receiving) (hno : (r'.slices i).sliceNo = msg.sliceNo)
    (hsize : 0 < t.size msg.sliceNo) :
    ∃ map, r'.trace.getLast? = some (.retransmit msg.sliceNo msg.rxmit map) ∧
      ∀ k < blocksIn t.blockSize (t.size msg.sliceNo), (map.getLsbD k = true ↔
        k ∈ blocksOf (arrivals p.1 (.receive top now (.reqack msg)) r' p.2 i)) := by
  have hplain : Plain t (.receive top now (.reqack msg)) := ⟨hd, rfl⟩
  have hobserved : Run.observe ReceiveData.step arrivals p (.receive top now (.reqack msg))
      = some (r', arrivals p.1 (.receive top now (.reqack msg)) r' p.2) :=
    Run.observe_eq_some.mpr ⟨hs, rfl⟩
  have hstep := h.step (by decide) hplain.carried halone hobserved
  have hbits := hstep.bits_eq (i := i) (fun _ => hplain.parityOf_arrivals hnone p.1 r' i) hi
    (by rw [hno]; exact hsize)
  have hlen := hstep.length_content hi
  simp only at hbits hlen
  have harrived : arrivedFor (.receive top now (.reqack msg)) (r'.slices i).sliceNo
      = [Datagram.reqack msg] := by
    rw [arrivedFor, hno]
    exact if_pos rfl
  cases slotStep h.reassembles h.consistent h.unnamed (by decide) hplain.carried halone
      (step_cases hs) hi (by rwa [hno]) with
  | same _ _ hnothing =>
    rw [harrived] at hnothing
    cases hnothing
  | seeded _ _ hnothing =>
    rw [harrived] at hnothing
    cases hnothing
  | packet hone hfirst hb hphase hholds hout =>
    rw [harrived] at hone
    obtain rfl := (List.cons.inj hone).1
    rw [hno] at hfirst hholds hout hlen
    have hnot := h.not_full hs hsize hfirst
    rw [← hlen, ← hb] at hnot
    cases hout with
    | known hblock _ _ => cases hblock
    | stored hdata _ _ _ _ => cases hdata
    | complete _ hfull => exact absurd (hholds.full_iff.mp hfull) hnot
    | @incomplete msg' map heq _ _ hmap =>
      obtain rfl := Datagram.reqack.inj heq
      rw [emit_slices, learnBytes_slices_self] at hbits hno
      refine ⟨map, by rw [emit_trace, List.getLast?_append, List.getLast?_singleton]; rfl,
        fun k hk => ?_⟩
      rw [hmap, ← hbits, Bitmap.mem_bits, Bool.and_eq_true, decide_eq_true_iff, and_iff_right]
      rwa [hb, hlen]

theorem Followed.reassembled (h : Followed t 1 p) (hnone : ∀ i, parityOf (p.2 i) = []) :
    Reassembled t p.1 p.2 := by
  have hkeeps := h.reassembles.keeps
  have hb := h.reassembles.regions.blockSize
  refine ⟨hkeeps.counted, fun i hi hsize => ?_, fun i hi hsize => ?_,
    fun i hi hsize hphase => ⟨?_, h.reassembles.complete hi hsize hphase⟩,
    fun i top now msg r' hd halone hs hi hno hsize => h.answered hnone hd halone hs hi hno hsize⟩
  · have hbits := h.bits_eq (fun _ => hnone i) hi hsize
    refine ⟨hbits, fun k hk => ?_⟩
    have hstored := (hkeeps.holds i hi hsize).stored k (by rwa [hbits])
    rwa [h.length_content hi, hb] at hstored
  · rw [← h.bits_eq (fun _ => hnone i) hi hsize]
    exact hkeeps.completing i hi hsize
  · have hfull := (hkeeps.completing i hi hsize).mp hphase
    rw [Full, ← h.length_content hi, ← hb] at hfull
    have hwindow := (hkeeps.holds i hi hsize).window_eq hfull
    rwa [h.length_content hi] at hwindow

end Followed

/-- Slot `i` has slice `s`, which has been handed over `n` times, and once more if it is done. -/
structure HandedOnce (i : Fin 8) (s : ℤ) (n : ℕ) (r : Receiver) : Prop where
  used : (r.slices i).state ≠ .free
  sliceNo : (r.slices i).sliceNo = s
  delivered : (delivered r.trace).count s = n + if (r.slices i).state = .done then 1 else 0

theorem HandedOnce.change {s : ℤ} {n : ℕ} (h : HandedOnce i s n r) (hr : Consistent r)
    (hsize : ∀ j, (r.slices j).state ≠ .free → (r.slices j).sliceNo = s → 0 < (r.slices j).bytes)
    (hstays : (r'.slices i).sliceNo = s) (hc : Change r a r') : HandedOnce i s n r' := by
  cases hc with
  | kept _ hsame _ htrace =>
    obtain ⟨es, ht, hquiet⟩ := htrace
    obtain ⟨hstate, -⟩ := hsame i
    refine ⟨by rw [hstate]; exact h.used, hstays, ?_⟩
    rw [ht, delivered_append fun e he => (hquiet e he).not_completed, hstate]
    exact h.delivered
  | @claimed j s' b hopens _ _ hsame _ hno _ _ _ htrace =>
    obtain ⟨es, ht, hquiet⟩ := htrace
    have hij : i ≠ j := fun hij => by
      rw [hij, hno] at hstays
      rw [hstays] at hopens
      exact findSlice_none (opens_eq_some.mp hopens).2.1 i h.used h.sliceNo
    obtain ⟨hstate, -⟩ := hsame i hij
    refine ⟨by rw [hstate]; exact h.used, hstays, ?_⟩
    rw [ht, delivered_append fun e he => ?_, hstate]
    · exact h.delivered
    · rcases List.mem_cons.mp he with rfl | he
      · simp
      · exact (hquiet e he).not_completed
  | @completed j _ _ hstate _ hother hself _ htrace =>
    have hcount : (ReceiveData.delivered r'.trace).count s = (ReceiveData.delivered r.trace).count s
        + (if 0 < (r.slices j).bytes then [(r.slices j).sliceNo] else []).count s := by
      rw [htrace, delivered_completed, List.count_append]
    by_cases hij : i = j
    · subst hij
      have hdelivered := h.delivered
      rw [if_neg (by rw [hstate]; decide)] at hdelivered
      refine ⟨by simp [hself], hstays, ?_⟩
      rw [hcount, hdelivered, if_pos (hsize i h.used h.sliceNo), h.sliceNo, hself, if_pos rfl,
        List.count_singleton_self]
    · have hne : (r.slices j).sliceNo ≠ s := fun hno =>
        hij (hr.unique i j h.used (by simp [hstate]) (h.sliceNo.trans hno.symm))
      have hnone : (if 0 < (r.slices j).bytes then [(r.slices j).sliceNo] else []).count s = 0 := by
        rw [List.count_eq_zero]
        split
        · simpa using hne.symm
        · exact List.not_mem_nil
      rw [hnone] at hcount
      refine ⟨by rw [hother i hij]; exact h.used, hstays, ?_⟩
      rw [hcount, hother i hij]
      exact h.delivered

/-- Reassembly of one slice.  On DATA packets and REQACKs of a transfer, in any order, with any
omission and repetition, and slots for data slices claimed one at a time: the counter of every slot
is the number of bits, the bits are the blocks that have arrived and the ring has them,
`complete_slice` is called when all have arrived and hands over the region, which has the bytes of
the slice, once for a slot, and a REQACK before that is answered with the blocks that are there. -/
theorem slice_reassembled (t : Transfer) (r₀ : Receiver) (hstart : Starts t r₀)
    (p : Receiver × (Fin 8 → List Datagram))
    (hrun : Run.Reach (Run.observe step arrivals) (fun p a => Plain t a ∧ ClaimsAlone t p.1 a)
      (r₀, fun _ => []) p) :
    Reassembled t p.1 p.2 ∧
      ∀ i p', (p.1.slices i).state = .receiving → 0 < t.size (p.1.slices i).sliceNo →
        Run.Reach (Run.observe step arrivals) (fun q a => Plain t a ∧ ClaimsAlone t q.1 a ∧
          Stays i (p.1.slices i).sliceNo q.1 a) p p' →
        HandedOnce i (p.1.slices i).sliceNo ((delivered p.1.trace).count (p.1.slices i).sliceNo)
          p'.1 := by
  have hok : ∀ q a q', (Followed t 1 q ∧ ∀ i, parityOf (q.2 i) = []) → Plain t a →
      ClaimsAlone t q.1 a → Run.observe step arrivals q a = some q' →
      Followed t 1 q' ∧ ∀ i, parityOf (q'.2 i) = [] := by
    intro q a q' ⟨hq, hnone⟩ hplain halone hs
    refine ⟨hq.step (by decide) hplain.carried halone hs, fun i => ?_⟩
    rw [(Run.observe_eq_some.mp hs).2]
    exact hplain.parityOf_arrivals hnone ..
  have hp := hrun.invariant (I := fun q => Followed t 1 q ∧ ∀ i, parityOf (q.2 i) = [])
    ⟨followed_start hstart 1, fun _ => rfl⟩ fun q a q' hq ha hs => hok q a q' hq ha.1 ha.2 hs
  refine ⟨hp.1.reassembled hp.2, fun i p' hi hsize hrun' => ?_⟩
  have honce : HandedOnce i (p.1.slices i).sliceNo
      ((delivered p.1.trace).count (p.1.slices i).sliceNo) p.1 :=
    ⟨by simp [hi], rfl, by rw [if_neg (by simp [hi])]; rfl⟩
  generalize (p.1.slices i).sliceNo = s at *
  refine (hrun'.invariant (I := fun q => (Followed t 1 q ∧ ∀ i, parityOf (q.2 i) = []) ∧
    HandedOnce i s ((delivered p.1.trace).count s) q.1) ⟨hp, honce⟩
    fun q a q' hq ha hs => ⟨hok q a q' hq.1 ha.1 ha.2.1 hs, ?_⟩).2
  have hstep := (Run.observe_eq_some.mp hs).1
  refine hq.2.change hq.1.1.consistent (fun j hj hno => ?_) (ha.2.2 _ hstep)
    ((step_cases hstep).change hq.1.1.reassembles.used)
  rw [hq.1.1.reassembles.sized.bytes_eq hj, hno]
  exact hsize

/-- The first slice of `tenSlices`: one block, a REQACK, the other block twice. -/
theorem slice_reassembled_tenSlices : ∃ p p' : Receiver × (Fin 8 → List Datagram),
    p.1.phase = .completing 0 ∧ Reassembled tenSlices p.1 p.2 ∧
      (p'.1.slices 0).state = .done ∧ HandedOnce 0 0 0 p'.1 := by
  have hexec : ((Run.exec (Run.observe step arrivals)
      (fun p a => Plain tenSlices a ∧ ClaimsAlone tenSlices p.1 a) (tenSlicesStart, fun _ => [])
      [.seed, block 0 1, .scan 0, .receive 0 0 (.reqack ⟨0, 2, 0⟩), .scan 0, block 0 0]).bind
        fun p => (Run.exec (Run.observe step arrivals)
          (fun q a => Plain tenSlices a ∧ ClaimsAlone tenSlices q.1 a ∧
            Stays 0 (p.1.slices 0).sliceNo q.1 a) p [.complete, .scan 0, block 0 0, .scan 0]).map
          fun p' => decide ((p.1.slices 0).state = .receiving ∧ (p.1.slices 0).sliceNo = 0 ∧
            p.1.phase = .completing 0 ∧ delivered p.1.trace = [] ∧
            (p'.1.slices 0).state = .done)) = some true := by decide +kernel
  obtain ⟨p, hp, h⟩ := Option.bind_eq_some_iff.mp hexec
  obtain ⟨p', hp', hprop⟩ := Option.map_eq_some_iff.mp h
  obtain ⟨hi, hno, hphase, hnone, hdone⟩ := of_decide_eq_true hprop
  obtain ⟨hslots, hrest⟩ := slice_reassembled tenSlices tenSlicesStart tenSlicesStart_starts p
    (Run.reach_of_exec hp)
  have honce := hrest 0 p' hi (by rw [hno]; decide) (Run.reach_of_exec hp')
  rw [hno, hnone] at honce
  exact ⟨p, p', hphase, hslots, hdone, honce⟩

end Reassembly

end Udpcast.ReceiveData
