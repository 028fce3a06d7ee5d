import Udpcast.SendData.Queues
import Udpcast.Transfer

/-!
# The slices and the input

Slice number `s` is cut from the input bytes behind those of the slices before it.  A step leaves
the slices in flight as they are and sends packets of some of them, or it forms a slice, or the
reader writes into the ring (`Moves`).
-/

namespace Udpcast.SendData

open Sender

/-- The place in the input where slice number `s` begins. -/
def Sender.sliceStart (x : Sender) (s : ℤ) : ℕ := (x.cuts.take s.toNat).sum

/-- The input bytes that slice number `s` was cut from. -/
def Sender.sliceInput (x : Sender) (s : ℤ) : List UInt8 :=
  (x.input.drop (x.sliceStart s)).take (x.cuts.getD s.toNat 0)

/-- The number of input bytes that are in the ring or have been there. -/
def Sender.written (x : Sender) : ℕ :=
  match x.reader with
  | .got _ buf => x.input.length - buf.length
  | .consumed _ buf => x.input.length - buf.length
  | _ => x.input.length

/-! ### What a step does to the slices -/

/-- A slice stays in flight, or is no longer. -/
def Keeps (s s' : Slice) : Prop :=
  s'.inFlight → s.inFlight ∧ s'.sliceNo = s.sliceNo ∧ s'.base = s.base ∧ s'.bytes = s.bytes

/-- The packets of slot `i`. -/
def PacketOf (x : Sender) (i : Fin 8) (d : Datagram) : Prop :=
  IsData x i d ∨ x.config.hasFlag flagFec = true ∧ 0 < (x.slices i).bytes ∧ IsFec x i d ∨
    ∃ rxmit, d = .reqack ⟨(x.slices i).sliceNo, asI32 (x.slices i).bytes, rxmit⟩

inductive Moves (x : Sender) (a : Action) (x' : Sender) : Prop
  | kept (ds : List Datagram) : (∀ j, Keeps (x.slices j) (x'.slices j)) → x'.cuts = x.cuts →
      x'.sliceNo = x.sliceNo → (∃ buf, x'.input = x.input ++ buf) → x'.written = x.written →
      x'.fifo.buffer = x.fifo.buffer → x'.fifo.dataBufSize = x.fifo.dataBufSize →
      x'.config.blockSize = x.config.blockSize → x'.sent = x.sent ++ ds →
      (∀ d ∈ ds, ∃ i, (x.slices i).inFlight ∧ PacketOf x i d) → Moves x a x'
  | formed {pos : Fin 8} {bytes m amount : ℕ} {data : Produconsum} : (x.slices pos).state = .free →
      x.fifo.data.consume amount = some m → CutFrom x.config m bytes →
      x' = formed x pos bytes data → Moves x a x'
  | wrote {pos : ℕ} {buf : List UInt8} : a = .readerWrite → x.reader = .consumed pos buf →
      x' = { x with
        fifo.buffer := Ring.write x.fifo.dataBufSize pos buf x.fifo.buffer
        reader := .written buf.length } → Moves x a x'

section Moves

variable {x x' : Sender} {a : Action}

theorem Keeps.refl (s : Slice) : Keeps s s := fun h => ⟨h, rfl, rfl, rfl⟩

theorem SameSlice.keeps {s s' : Slice} (h : SameSlice s s') : Keeps s s' := fun hs =>
  ⟨h.inFlight_iff.mp hs, h.sliceNo, h.base, h.bytes⟩

theorem Moves.main (ds : List Datagram) (hs : ∀ j, Keeps (x.slices j) (x'.slices j))
    (hcuts : x'.cuts = x.cuts) (hno : x'.sliceNo = x.sliceNo) (hinput : x'.input = x.input)
    (hr : x'.reader = x.reader) (hb : x'.fifo.buffer = x.fifo.buffer)
    (hN : x'.fifo.dataBufSize = x.fifo.dataBufSize)
    (hc : x'.config.blockSize = x.config.blockSize) (hsent : x'.sent = x.sent ++ ds)
    (hds : ∀ d ∈ ds, ∃ i, (x.slices i).inFlight ∧ PacketOf x i d) : Moves x a x' :=
  Moves.kept ds hs hcuts hno ⟨[], by rw [hinput, List.append_nil]⟩
    (by rw [Sender.written, Sender.written, hr, hinput]) hb hN hc hsent hds

theorem Moves.quiet (hs : ∀ j, Keeps (x.slices j) (x'.slices j))
    (hcuts : x'.cuts = x.cuts) (hno : x'.sliceNo = x.sliceNo) (hinput : x'.input = x.input)
    (hr : x'.reader = x.reader) (hb : x'.fifo.buffer = x.fifo.buffer)
    (hN : x'.fifo.dataBufSize = x.fifo.dataBufSize)
    (hc : x'.config.blockSize = x.config.blockSize) (hsent : x'.sent = x.sent) : Moves x a x' :=
  Moves.main [] hs hcuts hno hinput hr hb hN hc (by rw [hsent, List.append_nil])
    fun _ hd => absurd hd List.not_mem_nil

theorem keeps_released {i : Fin 8} {c : NetConfig} {q : Produconsum} (j : Fin 8) :
    Keeps (x.slices j) ((released x i c q).slices j) := by
  by_cases hji : j = i
  · subst hji
    rw [released_slices_self]
    intro h
    simp [Slice.inFlight] at h
  · rw [released_slices_of_ne _ _ _ hji]
    exact Keeps.refl _

theorem StepTo.moves (hs : StepTo x a x') (hc : Control x) : Moves x a x' := by
  cases hs with
  | arrive _ _ => exact Moves.quiet (fun _ => Keeps.refl _) rfl rfl rfl rfl rfl rfl rfl rfl
  | enqueue _ => exact Moves.quiet (fun _ => Keeps.refl _) rfl rfl rfl rfl rfl rfl rfl rfl
  | @dispatch m rest _ _ =>
    obtain ⟨hsame, slices, db, trace, heq⟩ := handleMessage_frame { x with msgs := rest } m
    exact Moves.quiet (fun j => (hsame j).keeps) (by rw [heq]) (by rw [heq]) (by rw [heq])
      (by rw [heq]) (by rw [heq]) (by rw [heq]) (by rw [heq]) (by rw [heq])
  | goto _ => exact Moves.quiet (fun _ => Keeps.refl _) rfl rfl rfl rfl rfl rfl rfl rfl
  | retain _ => exact Moves.quiet (fun _ => Keeps.refl _) rfl rfl rfl rfl rfl rfl rfl rfl
  | @acked i rest nr fr c q _ _ hconfig _ =>
    obtain ⟨_, _, hc'⟩ := growSliceSize_eq hconfig
    exact Moves.quiet (fun j => keeps_released j) rfl rfl rfl rfl rfl rfl
      (show c.blockSize = _ by rw [hc']) rfl
  | @rexmit i rest fl map good ds hphase hds =>
    have hcur := hc.current (Or.inr (Or.inl ⟨fl, hphase⟩))
    have hsame := fun j => sameSlice_modify (x := x) (f := fun s => s.rexmitted map good) (i := i)
      ⟨rfl, rfl, rfl, rfl, rfl⟩ j
    exact Moves.main ds (fun j => (hsame j).keeps) rfl rfl rfl rfl rfl rfl rfl rfl
      fun d hd => ⟨i, Or.inr hcur, Or.inl (hds.packet d hd)⟩
  | @reqack i rest nr fr rxmitId hphase _ =>
    have hcur := hc.current (Or.inr (Or.inr (Or.inl ⟨nr, fr, hphase⟩)))
    refine Moves.main _ (fun j => (sameSlice_requested x i j rxmitId).keeps) rfl rfl rfl rfl rfl rfl
      (reduceSliceSize_blockSize _ _) rfl fun d hd => ⟨i, Or.inr hcur, Or.inr (Or.inr ⟨rxmitId, ?_⟩)⟩
    rw [List.mem_singleton.mp hd, bumped_slices_self]
    rfl
  | asyncRound hasync => exact absurd hasync hc.not_asyncRound
  | form _ _ _ hfree hm hcut _ => exact Moves.formed hfree hm hcut rfl
  | finish _ => exact Moves.quiet (fun _ => Keeps.refl _) rfl rfl rfl rfl rfl rfl rfl rfl
  | @encode i fecData _ _ =>
    refine Moves.quiet (fun j => ?_) rfl rfl rfl rfl rfl rfl rfl rfl
    by_cases hji : j = i
    · subst hji
      show Keeps _ ((x.modify j fun s => { s with fecData := fecData }).slices j)
      rw [modify_slices_self]
      exact fun h => ⟨h, rfl, rfl, rfl⟩
    · show Keeps _ ((x.modify i fun s => { s with fecData := fecData }).slices j)
      rw [modify_slices_of_ne _ _ _ hji]
      exact Keeps.refl _
  | @transmit i ds hphase hds _ =>
    have hnew := hc.fresh i (Or.inr hphase)
    refine Moves.main (ds ++ [reqackOf ((transmitted x i ds).slices i)]) (fun j => ?_) rfl rfl
      rfl rfl rfl rfl (reduceSliceSize_blockSize _ _) (List.append_assoc _ _ _) fun d hd =>
        ⟨i, Or.inl hnew, ?_⟩
    · by_cases hji : j = i
      · subst hji
        show Keeps _ ((requested (transmitted x j ds) j).slices j)
        rw [requested_slices_self, transmitted_slices_self]
        exact fun _ => ⟨Or.inl hnew, rfl, rfl, rfl⟩
      · show Keeps _ ((requested (transmitted x i ds) i).slices j)
        rw [requested_slices_of_ne _ hji, transmitted_slices_of_ne _ _ hji]
        exact Keeps.refl _
    · rcases List.mem_append.mp hd with hd | hd
      · rcases hds d hd with h | h
        · exact Or.inl h
        · exact Or.inr (Or.inl h)
      · refine Or.inr (Or.inr ⟨(x.slices i).rxmitId, ?_⟩)
        rw [List.mem_singleton.mp hd, transmitted_slices_self]
        rfl
  | @transmitAsync i ds c q hphase hds hconfig _ _ =>
    obtain ⟨_, _, hc'⟩ := growSliceSize_eq hconfig
    refine Moves.main ds (fun j => keeps_released (x := x.send ds) j) rfl rfl rfl rfl rfl rfl
      (show c.blockSize = _ by rw [hc']) rfl fun d hd =>
        ⟨i, Or.inl (hc.fresh i (Or.inr hphase)), ?_⟩
    rcases hds d hd with h | h
    · exact Or.inl h
    · exact Or.inr (Or.inl h)
  | @timeout i rest rxmitId hphase hpending =>
    have hcur := hc.current (Or.inr (Or.inr (Or.inr ⟨hphase, hpending⟩)))
    refine Moves.main _ (fun j => (sameSlice_requested { x with db := afterDrop x i } i j rxmitId).keeps)
      rfl rfl rfl rfl rfl rfl (reduceSliceSize_blockSize _ _) rfl fun d hd =>
        ⟨i, Or.inr hcur, Or.inr (Or.inr ⟨rxmitId, ?_⟩)⟩
    rw [List.mem_singleton.mp hd, bumped_slices_self]
    rfl
  | allDropped _ _ => exact Moves.quiet (fun _ => Keeps.refl _) rfl rfl rfl rfl rfl rfl rfl rfl
  | readerWait hr hw =>
    have hmoves : ∀ p, ({ x with reader := p } : Sender).written = x.input.length →
        Moves x .readerWait { x with reader := p } := fun p hp =>
      Moves.kept [] (fun _ => Keeps.refl _) rfl rfl ⟨[], (List.append_nil _).symm⟩
        (by rw [hp, Sender.written, hr]) rfl rfl rfl (List.append_nil _).symm
        fun _ hd => absurd hd List.not_mem_nil
    rcases readerWait_frame hw with rfl | ⟨_, _, rfl⟩
    · exact hmoves _ rfl
    · exact hmoves _ rfl
  | readEnd hr =>
    refine Moves.kept [] (fun _ => Keeps.refl _) rfl rfl ⟨[], (List.append_nil _).symm⟩ ?_
      rfl rfl rfl (List.append_nil _).symm fun _ hd => absurd hd List.not_mem_nil
    simp only [Sender.written, hr]
  | @read pos n buf hr _ =>
    refine Moves.kept [] (fun _ => Keeps.refl _) rfl rfl ⟨buf, rfl⟩ ?_ rfl rfl rfl
      (List.append_nil _).symm fun _ hd => absurd hd List.not_mem_nil
    simp only [Sender.written, hr, List.length_append, Nat.add_sub_cancel]
  | @readerConsumed pos buf q hr _ =>
    refine Moves.kept [] (fun _ => Keeps.refl _) rfl rfl ⟨[], (List.append_nil _).symm⟩ ?_
      rfl rfl rfl (List.append_nil _).symm fun _ hd => absurd hd List.not_mem_nil
    simp only [Sender.written, hr]
  | readerWrite hr hw =>
    obtain rfl := Fifo.writeAt_frame hw
    exact Moves.wrote rfl hr rfl
  | readerProduced hr _ =>
    refine Moves.kept [] (fun _ => Keeps.refl _) rfl rfl ⟨[], (List.append_nil _).symm⟩ ?_
      rfl rfl rfl (List.append_nil _).symm fun _ hd => absurd hd List.not_mem_nil
    simp only [Sender.written, hr]

theorem Moves.blockSize (hm : Moves x a x') : x'.config.blockSize = x.config.blockSize := by
  cases hm with
  | kept _ _ _ _ _ _ _ _ hc _ _ => exact hc
  | formed _ _ _ heq => exact congrArg (·.config.blockSize) heq
  | wrote _ _ heq => exact congrArg (·.config.blockSize) heq

end Moves

/-! ### The places in the input -/

theorem sum_take_add_getD_le (l : List ℕ) (s : ℕ) : (l.take s).sum + l.getD s 0 ≤ l.sum := by
  induction l generalizing s with
  | nil => simp
  | cons n l ih =>
    cases s with
    | zero =>
      rw [List.take_zero, List.sum_nil, List.getD_cons_zero, List.sum_cons]
      omega
    | succ s =>
      have := ih s
      rw [List.take_succ_cons, List.sum_cons, List.getD_cons_succ, List.sum_cons]
      omega

/-- The slots in flight are for slices that have been cut. -/
structure Cut (x : Sender) : Prop where
  next : x.sliceNo = x.cuts.length
  slot : ∀ i, (x.slices i).inFlight → 0 ≤ (x.slices i).sliceNo ∧
    (x.slices i).sliceNo < x.cuts.length ∧
    (x.slices i).bytes = x.cuts.getD (x.slices i).sliceNo.toNat 0 ∧
    (x.slices i).base = x.sliceStart (x.slices i).sliceNo % x.fifo.dataBufSize

section Cut

variable {x x' : Sender} {a : Action} {F R P D : ℕ}

/-- More input and more slices do not change the place of a slice that has been cut. -/
theorem sliceStart_congr {s : ℤ} {rest : List ℕ} (hcuts : x'.cuts = x.cuts ++ rest) (hs : 0 ≤ s)
    (hlt : s < x.cuts.length) : x'.sliceStart s = x.sliceStart s := by
  rw [Sender.sliceStart, Sender.sliceStart, hcuts, List.take_append_of_le_length (by omega)]

theorem getD_cuts_append {cuts rest : List ℕ} {s : ℤ} (hs : 0 ≤ s) (hlt : s < cuts.length) :
    (cuts ++ rest).getD s.toNat 0 = cuts.getD s.toNat 0 := by
  rw [List.getD_append _ _ _ _ (by omega)]

theorem sliceInput_congr {s : ℤ} {buf : List UInt8} {rest : List ℕ}
    (hinput : x'.input = x.input ++ buf) (hcuts : x'.cuts = x.cuts ++ rest) (hs : 0 ≤ s)
    (hlt : s < x.cuts.length) (hle : x.cuts.sum ≤ x.input.length) :
    x'.sliceInput s = x.sliceInput s := by
  have hsum := sum_take_add_getD_le x.cuts s.toNat
  have hstart : x.sliceStart s = (x.cuts.take s.toNat).sum := rfl
  rw [Sender.sliceInput, Sender.sliceInput, sliceStart_congr hcuts hs hlt, hcuts,
    getD_cuts_append hs hlt, hinput, List.drop_append_of_le_length (by omega),
    List.take_append_of_le_length (by rw [List.length_drop]; omega)]

theorem length_sliceInput {s : ℤ} (hle : x.cuts.sum ≤ x.input.length) :
    (x.sliceInput s).length = x.cuts.getD s.toNat 0 := by
  have hsum := sum_take_add_getD_le x.cuts s.toNat
  have hstart : x.sliceStart s = (x.cuts.take s.toNat).sum := rfl
  rw [Sender.sliceInput, List.length_take, List.length_drop]
  omega

theorem formed_slot (pos : Fin 8) (bytes : ℕ) (data : Produconsum) (hcut : Cut x)
    (hq : Queues x F R P D) :
    let x' := formed x pos bytes data
    (x'.slices pos).sliceNo = x.cuts.length ∧ (x'.slices pos).bytes = bytes ∧
      (x'.slices pos).base = D % x.fifo.dataBufSize ∧ x'.sliceStart x.cuts.length = D ∧
      x'.cuts.getD x.cuts.length 0 = bytes := by
  intro x'
  have hself : x'.slices pos
      = (x.slices pos).formed x.fifo.data.getConsumerPosition x.sliceNo bytes :=
    formed_slices_self x pos bytes data
  have hcuts : x'.cuts = x.cuts ++ [bytes] := rfl
  rw [hself]
  refine ⟨hcut.next, rfl, ?_, ?_, ?_⟩
  · rw [← hq.dataSize]
    exact hq.data.getConsumerPosition
  · rw [Sender.sliceStart, hcuts, Int.toNat_natCast, List.take_left, hq.cut]
  · rw [hcuts, List.getD_append_right _ _ _ _ le_rfl, Nat.sub_self, List.getD_cons_zero]

theorem Cut.moves (h : Cut x) (hq : Queues x F R P D) (hm : Moves x a x') : Cut x' := by
  cases hm with
  | kept _ hs hcuts hno _ _ _ hN _ _ _ =>
    refine ⟨by rw [hno, hcuts, h.next], fun i hi => ?_⟩
    obtain ⟨hi', hno', hbase, hbytes⟩ := hs i hi
    have hsame : x'.sliceStart (x.slices i).sliceNo = x.sliceStart (x.slices i).sliceNo := by
      rw [Sender.sliceStart, Sender.sliceStart, hcuts]
    rw [hno', hbase, hbytes, hcuts, hN, hsame]
    exact h.slot i hi'
  | @formed pos bytes m amount data _ _ _ heq =>
    obtain ⟨hno, hbytes, hbase, hstart, hlast⟩ := formed_slot pos bytes data h hq
    rw [heq]
    have hcuts : (formed x pos bytes data).cuts = x.cuts ++ [bytes] := rfl
    have hN : (formed x pos bytes data).fifo.dataBufSize = x.fifo.dataBufSize := rfl
    refine ⟨?_, fun i hi => ?_⟩
    · show x.sliceNo + 1 = _
      rw [hcuts, List.length_append, h.next]
      rfl
    · by_cases hip : i = pos
      · rw [hip, hno, Int.toNat_natCast, hlast, hbytes, hbase, hstart, hcuts, hN]
        exact ⟨by omega, by simp, rfl, rfl⟩
      · rw [formed_slices_of_ne _ _ _ hip] at hi ⊢
        obtain ⟨h0, hlt, hb, hba⟩ := h.slot i hi
        rw [hcuts, getD_cuts_append h0 hlt, sliceStart_congr hcuts h0 hlt, hN]
        exact ⟨h0, by rw [List.length_append]; omega, hb, hba⟩
  | wrote _ _ heq =>
    rw [heq]
    exact ⟨h.next, h.slot⟩

end Cut

theorem cut_start {config : NetConfig} {db : ParticipantsDb} {x : Sender}
    (h : Sender.start config db = some x) : Cut x := by
  simp only [Sender.start, Option.bind_eq_bind, Option.bind_eq_some_iff] at h
  obtain ⟨fifo, -, nrFec, -, c₁, -, c₂, -, h⟩ := h
  obtain rfl := Option.some.inj h
  exact ⟨rfl, fun i hi => by simp [Slice.inFlight, Slice.new] at hi⟩

/-! ### What is not cut yet -/

/-- The ring has the input bytes behind the last slice. -/
def Waiting (x : Sender) : Prop :=
  Ring.window x.fifo.dataBufSize x.cuts.sum (x.written - x.cuts.sum) x.fifo.buffer
    = (x.input.drop x.cuts.sum).take (x.written - x.cuts.sum)

section Waiting

variable {x x' : Sender} {a : Action} {F R P D : ℕ}

theorem Queues.written (h : Queues x F R P D) : P ≤ x.written ∧ x.written ≤ x.input.length := by
  have hahead := h.ahead
  rw [Sender.written]
  cases hr : x.reader with
  | waiting => rw [hr] at hahead; exact ⟨hahead.1.ge, le_rfl⟩
  | reading pos n => rw [hr] at hahead; exact ⟨hahead.1.ge, le_rfl⟩
  | got pos buf =>
    rw [hr] at hahead
    have := hahead.1
    simp only
    omega
  | consumed pos buf =>
    rw [hr] at hahead
    have h1 := hahead.1
    have h2 := hahead.2.1
    simp only
    omega
  | written n =>
    rw [hr] at hahead
    have h1 := hahead.1
    have h2 := hahead.2
    simp only
    omega
  | returned => rw [hr] at hahead; exact ⟨hahead.1.ge, le_rfl⟩

theorem Waiting.cut (h : Waiting x) (hq : Queues x F R P D) {bytes : ℕ} (hbytes : D + bytes ≤ P) :
    Ring.window x.fifo.dataBufSize x.cuts.sum bytes x.fifo.buffer
      = (x.input.drop x.cuts.sum).take bytes := by
  have hsum : x.cuts.sum = D := hq.cut
  have hwritten := hq.written
  have hle : bytes ≤ x.written - x.cuts.sum := by omega
  rw [← Ring.take_window hle, h, List.take_take, Nat.min_eq_left hle]

theorem Waiting.moves (h : Waiting x) (hq : Queues x F R P D) (hm : Moves x a x') : Waiting x' := by
  have hle := hq.le
  have hwritten := hq.written
  have hsum : x.cuts.sum = D := hq.cut
  rw [Waiting] at h
  cases hm with
  | kept _ _ hcuts _ hinput hw hb hN _ _ _ =>
    obtain ⟨buf, hinput⟩ := hinput
    rw [Waiting, hcuts, hb, hN, hw, h, hinput, List.drop_append_of_le_length (by omega),
      List.take_append_of_le_length (by rw [List.length_drop]; omega)]
  | @formed pos bytes m amount data _ hm hcutFrom heq =>
    obtain ⟨hm', -⟩ := hq.data.consume hm
    have hbm := hcutFrom.le
    have hcuts : (formed x pos bytes data).cuts = x.cuts ++ [bytes] := rfl
    have hsplit : x.written - x.cuts.sum = bytes + (x.written - (x.cuts.sum + bytes)) := by omega
    rw [hsplit, Ring.window_add, List.take_add] at h
    obtain ⟨-, hrest⟩ := List.append_inj h (by
      rw [Ring.length_window, List.length_take, List.length_drop]
      omega)
    rw [heq, Waiting, hcuts, List.sum_append, List.sum_singleton]
    show Ring.window x.fifo.dataBufSize (x.cuts.sum + bytes) (x.written - _) x.fifo.buffer
      = (x.input.drop _).take (x.written - _)
    rw [hrest, List.drop_drop]
  | @wrote pos buf _ hr heq =>
    have hahead := hq.ahead
    rw [hr] at hahead
    obtain ⟨hin, hR, hdrop, hpos⟩ := hahead
    have hw : x.written = P := by
      rw [Sender.written, hr]
      simp only
      omega
    have hbuf : buf.length ≤ x.fifo.dataBufSize := by omega
    rw [heq]
    show Ring.window x.fifo.dataBufSize x.cuts.sum (x.input.length - x.cuts.sum)
        (Ring.write x.fifo.dataBufSize pos buf x.fifo.buffer)
      = (x.input.drop x.cuts.sum).take (x.input.length - x.cuts.sum)
    have hsplit : x.input.length - x.cuts.sum = (x.written - x.cuts.sum) + buf.length := by omega
    have hP : x.cuts.sum + (x.written - x.cuts.sum) = P := by omega
    -- the copy leaves what waits alone, which ends where it begins
    rw [hsplit, Ring.window_add, hP, hpos, Ring.window_write_of_disjoint hbuf
        (Ring.disjoint_cells (by omega) (by omega)).symm, h,
      Ring.window_write_self hbuf, List.take_add, List.drop_drop, hP, hdrop, List.take_length]

end Waiting

theorem waiting_start {config : NetConfig} {db : ParticipantsDb} {x : Sender}
    (h : Sender.start config db = some x) : Waiting x := by
  simp only [Sender.start, Option.bind_eq_bind, Option.bind_eq_some_iff] at h
  obtain ⟨fifo, -, nrFec, -, c₁, -, c₂, -, h⟩ := h
  obtain rfl := Option.some.inj h
  rfl

/-! ### Runs -/

/-- What holds of the loop's position, the slices in flight and the queues in every run. -/
structure Sound (x : Sender) : Prop where
  control : Control x
  cut : Cut x
  queues : ∃ F R P D, Queues x F R P D
  waiting : Waiting x

theorem sound_start {config : NetConfig} {db : ParticipantsDb} {x : Sender}
    (h : Sender.start config db = some x) : Sound x :=
  ⟨control_start h, cut_start h, ⟨_, _, _, _, queues_start h⟩, waiting_start h⟩

theorem Sound.step {x x' : Sender} {a : Action} (h : Sound x) (hs : StepTo x a x') : Sound x' := by
  obtain ⟨F, R, P, D, hq⟩ := h.queues
  have hm := hs.moves h.control
  exact ⟨h.control.step hs, h.cut.moves hq hm, hq.step h.control hs, h.waiting.moves hq hm⟩

end Udpcast.SendData
