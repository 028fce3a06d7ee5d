import Udpcast.SendData.Steps

/-!
# The slots and the pending list

The main loop keeps the slots that have been sent in a list, which it works off in three loops; a
slot is freed inside a loop and leaves the list after it.  `Control` relates the list, the position
in the loops and the states of the slots.
-/

namespace Udpcast.SendData

open Sender

/-! ### What the configuration keeps -/

theorem growSliceSize_eq {c c' : NetConfig} (h : growSliceSize c = some c') :
    ∃ n d, c' = { c with sliceSize := n, discovery := d } := by
  rw [growSliceSize] at h
  split at h
  · obtain ⟨size, -, h⟩ := Option.bind_eq_some_iff.mp h
    obtain rfl := Option.some.inj h
    split
    · exact ⟨_, _, rfl⟩
    · exact ⟨_, _, rfl⟩
  · obtain rfl := Option.some.inj h
    exact ⟨_, _, rfl⟩

theorem reduceSliceSize_eq (c : NetConfig) (s : Slice) :
    ∃ n d, reduceSliceSize c s = { c with sliceSize := n, discovery := d } := by
  rw [reduceSliceSize]
  split
  · exact ⟨_, _, rfl⟩
  · exact ⟨_, _, rfl⟩

theorem growSliceSize_flags {c c' : NetConfig} (h : growSliceSize c = some c') :
    c'.flags = c.flags := by
  obtain ⟨_, _, rfl⟩ := growSliceSize_eq h
  rfl

theorem growSliceSize_blockSize {c c' : NetConfig} (h : growSliceSize c = some c') :
    c'.blockSize = c.blockSize := by
  obtain ⟨_, _, rfl⟩ := growSliceSize_eq h
  rfl

theorem reduceSliceSize_flags (c : NetConfig) (s : Slice) : (reduceSliceSize c s).flags = c.flags := by
  obtain ⟨_, _, h⟩ := reduceSliceSize_eq c s
  rw [h]

theorem reduceSliceSize_blockSize (c : NetConfig) (s : Slice) :
    (reduceSliceSize c s).blockSize = c.blockSize := by
  obtain ⟨_, _, h⟩ := reduceSliceSize_eq c s
  rw [h]

theorem hasFlag_congr {c c' : NetConfig} (h : c'.flags = c.flags) (flag : ℕ) :
    c'.hasFlag flag = c.hasFlag flag := by
  rw [NetConfig.hasFlag, NetConfig.hasFlag, h]

/-! ### The slots that are in flight -/

/-- A slice is formed and not acked. -/
def Slice.inFlight (s : Slice) : Prop := s.state = .new ∨ s.state = .xmitted

instance (s : Slice) : Decidable s.inFlight := inferInstanceAs (Decidable (_ ∨ _))

/-- A slot in the middle of a loop over the pending slices: those that are left have been sent, and
all of them have unless one has been freed. -/
structure Unprocessed (x : Sender) (rest : List (Fin 8)) (freed : Bool) : Prop where
  nodup : rest.Nodup
  rest : ∀ i ∈ rest, (x.slices i).state = .xmitted
  all : freed = false → ∀ i ∈ x.pending, (x.slices i).state = .xmitted

def PendingAt (x : Sender) : Phase → Prop
  | .acking rest nr freed => Unprocessed x rest freed ∧ nr = x.db.nrParticipants
  | .reqacking rest nr freed => Unprocessed x rest freed ∧ nr = x.db.nrParticipants
  | .rexmitting rest _ => (∀ i ∈ rest, (x.slices i).state = .xmitted) ∧
      ∀ i ∈ x.pending, (x.slices i).state = .xmitted
  | _ => ∀ i ∈ x.pending, (x.slices i).state = .xmitted

structure Control (x : Sender) : Prop where
  nodup : x.pending.Nodup
  notAcked : ∀ i, (x.slices i).state ≠ .acked
  new : ∀ i, (x.slices i).state = .new → x.phase = .encoding i ∨ x.phase = .sending i
  fresh : ∀ i, x.phase = .encoding i ∨ x.phase = .sending i → (x.slices i).state = .new
  xmitted : ∀ i, (x.slices i).state = .xmitted → i ∈ x.pending
  async : x.config.hasFlag flagAsync = true → ∀ i, (x.slices i).state = .xmitted →
    (x.slices i).bytes = 0
  pendingAt : PendingAt x x.phase

section Control

variable {x x' : Sender}

theorem Control.inFlight_iff (h : Control x) (i : Fin 8) :
    (x.slices i).inFlight ↔ (x.slices i).state ≠ .free := by
  have hnot := h.notAcked i
  rw [Slice.inFlight]
  cases hs : (x.slices i).state with
  | free => simp
  | new => simp
  | xmitted => simp
  | acked => exact absurd hs hnot

/-- In asynchronous mode no data slice is pending. -/
theorem Control.not_asyncRound (h : Control x) : ¬ AsyncRound x := by
  rintro ⟨hasync, i, hne, ⟨rest, nr, fr, hphase⟩ | ⟨hphase, hmem⟩⟩
  · have hat := h.pendingAt
    rw [hphase] at hat
    exact hne (h.async hasync i (hat.1.rest i List.mem_cons_self))
  · have hat := h.pendingAt
    rw [hphase] at hat
    exact hne (h.async hasync i (hat i hmem))

theorem Control.current (h : Control x) {i : Fin 8} {rest : List (Fin 8)}
    (hphase : (∃ nr fr, x.phase = .acking (i :: rest) nr fr) ∨
      (∃ fl, x.phase = .rexmitting (i :: rest) fl) ∨
      (∃ nr fr, x.phase = .reqacking (i :: rest) nr fr) ∨
      x.phase = .waiting ∧ x.pending = i :: rest) : (x.slices i).state = .xmitted := by
  have hat := h.pendingAt
  rcases hphase with ⟨nr, fr, hp⟩ | ⟨fl, hp⟩ | ⟨nr, fr, hp⟩ | ⟨hp, hpending⟩
  · rw [hp] at hat
    exact hat.1.rest i List.mem_cons_self
  · rw [hp] at hat
    exact hat.1 i List.mem_cons_self
  · rw [hp] at hat
    exact hat.1.rest i List.mem_cons_self
  · rw [hp] at hat
    exact hat i (by rw [hpending]; exact List.mem_cons_self)

theorem PendingAt.congr {p : Phase} (h : PendingAt x p) (hp : x'.pending = x.pending)
    (hs : ∀ i, (x'.slices i).state = (x.slices i).state)
    (hdb : x'.db.nrParticipants = x.db.nrParticipants) : PendingAt x' p := by
  have hun : ∀ rest fr, Unprocessed x rest fr → Unprocessed x' rest fr := fun rest fr hu =>
    ⟨hu.nodup, fun i hi => by rw [hs, hu.rest i hi],
      fun hfr i hi => by rw [hs, hu.all hfr i (hp ▸ hi)]⟩
  have hall : (∀ i ∈ x.pending, (x.slices i).state = .xmitted) →
      ∀ i ∈ x'.pending, (x'.slices i).state = .xmitted := fun hall i hi => by
    rw [hs, hall i (hp ▸ hi)]
  cases p with
  | acking rest nr fr => exact ⟨hun rest fr h.1, h.2.trans hdb.symm⟩
  | reqacking rest nr fr => exact ⟨hun rest fr h.1, h.2.trans hdb.symm⟩
  | rexmitting rest fl => exact ⟨fun i hi => by rw [hs, h.1 i hi], hall h.2⟩
  | top => exact hall h
  | forming => exact hall h
  | encoding i => exact hall h
  | sending i => exact hall h
  | waiting => exact hall h
  | returned => exact hall h

/-- In every phase but the two loops that free slots, all pending slots have been sent. -/
theorem PendingAt.all {p : Phase} (h : PendingAt x p)
    (hp : ∀ rest nr, p ≠ .acking rest nr true ∧ p ≠ .reqacking rest nr true) :
    ∀ i ∈ x.pending, (x.slices i).state = .xmitted := by
  cases p with
  | acking rest nr fr =>
    cases fr with
    | true => exact absurd rfl (hp rest nr).1
    | false => exact h.1.all rfl
  | reqacking rest nr fr =>
    cases fr with
    | true => exact absurd rfl (hp rest nr).2
    | false => exact h.1.all rfl
  | rexmitting rest fl => exact h.2
  | top => exact h
  | forming => exact h
  | encoding i => exact h
  | sending i => exact h
  | waiting => exact h
  | returned => exact h

theorem Control.move (h : Control x) {p : Phase} (hp : x'.pending = x.pending)
    (hs : ∀ i, (x'.slices i).state = (x.slices i).state ∧ (x'.slices i).bytes = (x.slices i).bytes)
    (hflags : x'.config.flags = x.config.flags)
    (hold : ∀ i, x.phase ≠ .encoding i ∧ x.phase ≠ .sending i)
    (hnew : ∀ i, x'.phase ≠ .encoding i ∧ x'.phase ≠ .sending i)
    (hphase : x'.phase = p) (hat : PendingAt x' p) : Control x' where
  nodup := by rw [hp]; exact h.nodup
  notAcked i := by rw [(hs i).1]; exact h.notAcked i
  new i hi := by
    rw [(hs i).1] at hi
    rcases h.new i hi with he | he
    · exact absurd he (hold i).1
    · exact absurd he (hold i).2
  fresh i hi := by
    rcases hi with hi | hi
    · exact absurd hi (hnew i).1
    · exact absurd hi (hnew i).2
  xmitted i hi := by
    rw [(hs i).1] at hi
    rw [hp]
    exact h.xmitted i hi
  async ha i hi := by
    have hasync : x.config.hasFlag flagAsync = true := (hasFlag_congr hflags flagAsync).symm.trans ha
    rw [(hs i).1] at hi
    rw [(hs i).2]
    exact h.async hasync i hi
  pendingAt := by rw [hphase]; exact hat

theorem Control.freed (h : Control x) {i : Fin 8} {p : Phase} (hp : x'.pending = x.pending)
    (hflags : x'.config.flags = x.config.flags)
    (hself : x'.slices i = { x.slices i with state := .free })
    (hother : ∀ j, j ≠ i → x'.slices j = x.slices j)
    (hold : ∀ i, x.phase ≠ .encoding i ∧ x.phase ≠ .sending i)
    (hnew : ∀ i, p ≠ .encoding i ∧ p ≠ .sending i)
    (hphase : x'.phase = p) (hat : PendingAt x' p) : Control x' := by
  have hkeep : ∀ j, (x'.slices j).state ≠ .free → x'.slices j = x.slices j := by
    intro j hj
    exact hother j fun hji => hj (by rw [hji, hself])
  refine
    { nodup := by rw [hp]; exact h.nodup
      notAcked := fun j hj => ?_
      new := fun j hj => ?_
      fresh := fun j hj => ?_
      xmitted := fun j hj => ?_
      async := fun ha j hj => ?_
      pendingAt := by rw [hphase]; exact hat }
  · rw [hkeep j (by simp [hj])] at hj
    exact h.notAcked j hj
  · rw [hkeep j (by simp [hj])] at hj
    rcases h.new j hj with he | he
    · exact absurd he (hold j).1
    · exact absurd he (hold j).2
  · rw [hphase] at hj
    rcases hj with hj | hj
    · exact absurd hj (hnew j).1
    · exact absurd hj (hnew j).2
  · rw [hkeep j (by simp [hj])] at hj
    rw [hp]
    exact h.xmitted j hj
  · have hsame := hkeep j (by simp [hj])
    rw [hsame] at hj ⊢
    exact h.async ((hasFlag_congr hflags flagAsync).symm.trans ha) j hj

theorem Control.beside (h : Control x) (hp : x'.pending = x.pending) (hs : x'.slices = x.slices)
    (hc : x'.config = x.config) (hphase : x'.phase = x.phase) (hdb : x'.db = x.db) : Control x' where
  nodup := by rw [hp]; exact h.nodup
  notAcked := by rw [hs]; exact h.notAcked
  new := by rw [hs, hphase]; exact h.new
  fresh := by rw [hs, hphase]; exact h.fresh
  xmitted := by rw [hs, hp]; exact h.xmitted
  async := by rw [hs, hc]; exact h.async
  pendingAt := by
    rw [hphase]
    exact h.pendingAt.congr hp (fun i => by rw [hs]) (by rw [hdb])

theorem Goto.not_new {a : Action} {p : Phase} (h : Goto x a p) :
    (∀ i, x.phase ≠ .encoding i ∧ x.phase ≠ .sending i) ∧
      ∀ i, p ≠ .encoding i ∧ p ≠ .sending i := by
  cases h with
  | top hp _ => simp [hp]
  | notReady hp => simp [hp]
  | acked hp => simp [hp]
  | complete hp _ => simp [hp]
  | rexmitted hp => simp [hp]
  | rexmittedNone hp => simp [hp]
  | notAnswered hp _ => simp [hp]
  | reqacked hp => simp [hp]
  | noSlot hp => simp [hp]
  | wait hp => simp [hp]
  | woken hp _ => simp [hp]

theorem Unprocessed.tail {i : Fin 8} {rest : List (Fin 8)} {fr : Bool}
    (h : Unprocessed x (i :: rest) fr) : Unprocessed x rest fr :=
  ⟨(List.nodup_cons.mp h.nodup).2, fun j hj => h.rest j (List.mem_cons_of_mem _ hj), h.all⟩

theorem Goto.pendingAt {a : Action} {p : Phase} (h : Goto x a p) (hx : Control x) : PendingAt x p := by
  have hat := hx.pendingAt
  have hstart : (∀ i ∈ x.pending, (x.slices i).state = .xmitted) → Unprocessed x x.pending false :=
    fun hall => ⟨hx.nodup, hall, fun _ => hall⟩
  cases h with
  | top hp _ =>
    rw [hp] at hat
    exact ⟨hstart hat, rfl⟩
  | notReady hp =>
    rw [hp] at hat
    exact ⟨hat.1.tail, hat.2⟩
  | acked hp =>
    rw [hp] at hat
    exact ⟨hat.1.all rfl, hat.1.all rfl⟩
  | complete hp _ =>
    rw [hp] at hat
    exact ⟨fun j hj => hat.1 j (List.mem_cons_of_mem _ hj), hat.2⟩
  | rexmitted hp =>
    rw [hp] at hat
    exact hat.2
  | rexmittedNone hp =>
    rw [hp] at hat
    exact ⟨hstart hat.2, rfl⟩
  | notAnswered hp _ =>
    rw [hp] at hat
    exact ⟨hat.1.tail, hat.2⟩
  | reqacked hp =>
    rw [hp] at hat
    exact hat.1.all rfl
  | noSlot hp =>
    rw [hp] at hat
    exact hat
  | wait hp =>
    rw [hp] at hat
    exact hat
  | woken hp _ =>
    rw [hp] at hat
    exact hat

/-! ### The slots after a message -/

/-- The fields of a slot that only forming, sending and acking change. -/
structure SameSlice (s s' : Slice) : Prop where
  state : s'.state = s.state
  sliceNo : s'.sliceNo = s.sliceNo
  base : s'.base = s.base
  bytes : s'.bytes = s.bytes
  fecData : s'.fecData = s.fecData

theorem SameSlice.refl (s : Slice) : SameSlice s s := ⟨rfl, rfl, rfl, rfl, rfl⟩

theorem sameSlice_ready (s : Slice) (cl : ℕ) : SameSlice s (s.ready cl) := by
  simp only [Slice.ready]
  split
  · split
    · exact ⟨rfl, rfl, rfl, rfl, rfl⟩
    · exact ⟨rfl, rfl, rfl, rfl, rfl⟩
  · split
    · exact ⟨rfl, rfl, rfl, rfl, rfl⟩
    · exact ⟨rfl, rfl, rfl, rfl, rfl⟩

theorem sameSlice_missing (s : Slice) (cl : ℕ) (map : Bitmap) : SameSlice s (s.missing cl map) := by
  simp only [Slice.missing]
  split
  · exact ⟨rfl, rfl, rfl, rfl, rfl⟩
  · exact ⟨rfl, rfl, rfl, rfl, rfl⟩

theorem sameSlice_forget (s : Slice) (cl : ℕ) : SameSlice s (s.forget cl) := by
  simp only [Slice.forget]
  split
  · split
    · exact ⟨rfl, rfl, rfl, rfl, rfl⟩
    · exact ⟨rfl, rfl, rfl, rfl, rfl⟩
  · split
    · exact ⟨rfl, rfl, rfl, rfl, rfl⟩
    · exact ⟨rfl, rfl, rfl, rfl, rfl⟩

theorem sameSlice_requested (x : Sender) (i j : Fin 8) (rxmitId : ℤ) :
    SameSlice (x.slices j) ((requested (bumped x i rxmitId) i).slices j) := by
  by_cases hji : j = i
  · subst hji
    rw [requested_slices_self, bumped_slices_self]
    exact ⟨rfl, rfl, rfl, rfl, rfl⟩
  · rw [requested_slices_of_ne _ hji, bumped_slices_of_ne _ _ hji]
    exact SameSlice.refl _

theorem sameSlice_modify {f : Slice → Slice} {i : Fin 8} (h : SameSlice (x.slices i) (f (x.slices i)))
    (j : Fin 8) : SameSlice (x.slices j) ((x.modify i f).slices j) := by
  by_cases hji : j = i
  · subst hji
    rw [modify_slices_self]
    exact h
  · rw [modify_slices_of_ne _ _ _ hji]
    exact SameSlice.refl _

theorem handleMessage_frame (x : Sender) (m : IncomingMsg) :
    (∀ j, SameSlice (x.slices j) ((handleMessage x m).slices j)) ∧
      ∃ slices db trace, handleMessage x m = { x with slices := slices, db := db, trace := trace } := by
  cases m with
  | ok s cl =>
    simp only [handleMessage]
    cases hfind : findSlice x s with
    | none => exact ⟨fun j => SameSlice.refl _, _, _, _, rfl⟩
    | some i =>
      refine ⟨fun j => ?_, _, _, _, rfl⟩
      rw [emit_slices]
      exact sameSlice_modify (x := { x with
        db := x.db.markAnswered cl (some s) (x.slices i).rxmitId }) (sameSlice_ready _ cl) j
  | retransmit s cl map rxmit =>
    simp only [handleMessage]
    cases hfind : findSlice x s with
    | none => exact ⟨fun j => SameSlice.refl _, _, _, _, rfl⟩
    | some i =>
      refine ⟨fun j => ?_, _, _, _, rfl⟩
      exact sameSlice_modify (x := { x with
        db := x.db.markAnswered cl (some s) (x.slices i).rxmitId }) (sameSlice_missing _ cl map) j
  | disconnect cl => exact ⟨fun j => sameSlice_forget _ cl, _, _, _, rfl⟩

theorem released_slices_self (x : Sender) (i : Fin 8) (c : NetConfig) (q : Produconsum) :
    (released x i c q).slices i = { x.slices i with state := .free } := by
  rw [released, emit_slices, modify_slices_self]

theorem released_slices_of_ne (x : Sender) {i j : Fin 8} (c : NetConfig) (q : Produconsum)
    (h : j ≠ i) : (released x i c q).slices j = x.slices j := by
  rw [released, emit_slices, modify_slices_of_ne _ _ _ h]

theorem formed_slices_self (x : Sender) (pos : Fin 8) (n : ℕ) (q : Produconsum) :
    (formed x pos n q).slices pos
      = (x.slices pos).formed x.fifo.data.getConsumerPosition x.sliceNo n := by
  rw [formed, emit_slices, modify_slices_self]

theorem formed_slices_of_ne (x : Sender) {pos j : Fin 8} (n : ℕ) (q : Produconsum) (h : j ≠ pos) :
    (formed x pos n q).slices j = x.slices j := by
  rw [formed, emit_slices, modify_slices_of_ne _ _ _ h]

theorem readerWait_frame {x x' : Sender} (h : readerWait x = some x') :
    x' = { x with reader := .returned } ∨ ∃ pos n, x' = { x with reader := .reading pos n } := by
  obtain ⟨m, -, h⟩ := Option.bind_eq_some_iff.mp h
  simp only at h
  generalize (if m > (x.fifo.freeMemQueue.getConsumerPosition + m) % ioBlockSize ∧
      (x.fifo.freeMemQueue.getConsumerPosition + m) % ioBlockSize ≠ 0
    then m - (x.fifo.freeMemQueue.getConsumerPosition + m) % ioBlockSize else m) = n at h
  obtain rfl := Option.some.inj h
  split
  · exact Or.inl rfl
  · exact Or.inr ⟨_, _, rfl⟩

/-! ### All steps -/

theorem Control.step {a : Action} (h : Control x) (hs : StepTo x a x') : Control x' := by
  have hat := h.pendingAt
  have hmovable : ∀ {p : Phase}, x.phase = p → (∀ i, p ≠ .encoding i ∧ p ≠ .sending i) →
      ∀ i, x.phase ≠ .encoding i ∧ x.phase ≠ .sending i := fun hp hne => hp ▸ hne
  cases hs with
  | arrive _ _ => exact h.beside rfl rfl rfl rfl rfl
  | enqueue _ => exact h.beside rfl rfl rfl rfl rfl
  | @dispatch m rest hphase _ =>
    obtain ⟨hsame, slices, db, trace, heq⟩ := handleMessage_frame { x with msgs := rest } m
    have hp : (handleMessage { x with msgs := rest } m).phase = .top := by rw [heq]; exact hphase
    rw [hphase] at hat
    refine h.move (by rw [heq]) (fun i => ⟨(hsame i).state, (hsame i).bytes⟩) (by rw [heq])
      (hmovable hphase (by simp)) (by simp [hp]) hp ?_
    intro i hi
    rw [(hsame i).state]
    rw [heq] at hi
    exact hat i hi
  | goto hgoto =>
    exact h.move rfl (fun i => ⟨rfl, rfl⟩) rfl hgoto.not_new.1 hgoto.not_new.2 rfl
      ((hgoto.pendingAt h).congr rfl (fun i => rfl) rfl)
  | @retain nr hphase =>
    have hfilter : ∀ i, i ∈ (retainPending x).pending ↔ i ∈ x.pending ∧ (x.slices i).state ≠ .free := by
      intro i
      simp [retainPending]
    have hold : ∀ i, x.phase ≠ .encoding i ∧ x.phase ≠ .sending i := by
      rcases hphase with hphase | hphase
      · simp [hphase]
      · simp [hphase]
    refine
      { nodup := h.nodup.filter _
        notAcked := h.notAcked
        new := fun i hi => ?_
        fresh := fun i hi => by simp at hi
        xmitted := fun i hi => (hfilter i).mpr ⟨h.xmitted i hi, by rw [show (x.slices i).state = _ from hi]; simp⟩
        async := h.async
        pendingAt := ?_ }
    · rcases h.new i hi with he | he
      · exact absurd he (hold i).1
      · exact absurd he (hold i).2
    · intro i hi
      obtain ⟨-, hne⟩ := (hfilter i).mp hi
      show (x.slices i).state = .xmitted
      rcases (h.inFlight_iff i).mpr hne with hnew | hx
      · rcases h.new i hnew with he | he
        · exact absurd he (hold i).1
        · exact absurd he (hold i).2
      · exact hx
  | @acked i rest nr fr c q hphase _ hconfig _ =>
    rw [hphase] at hat
    have hnotin : i ∉ rest := (List.nodup_cons.mp hat.1.nodup).1
    refine h.freed (i := i) rfl (growSliceSize_flags hconfig) (released_slices_self x i c q)
      (fun j hj => released_slices_of_ne x c q hj) (hmovable hphase (by simp)) (by simp)
      (p := .acking rest nr true) rfl ⟨⟨hat.1.tail.nodup, fun j hj => ?_, fun hfr => by cases hfr⟩, hat.2⟩
    have hji : j ≠ i := fun hji => hnotin (hji ▸ hj)
    show ((released x i c q).slices j).state = .xmitted
    rw [released_slices_of_ne x c q hji]
    exact hat.1.tail.rest j hj
  | @rexmit i rest fl map good ds hphase _ =>
    have hsame := fun j => sameSlice_modify (x := x) (f := fun s => s.rexmitted map good) (i := i)
      ⟨rfl, rfl, rfl, rfl, rfl⟩ j
    rw [hphase] at hat
    refine h.move (p := .rexmitting rest true) rfl (fun j => ⟨(hsame j).state, (hsame j).bytes⟩) rfl
      (hmovable hphase (by simp)) (by simp) rfl ⟨fun j hj => ?_, fun j hj => ?_⟩
    · exact (hsame j).state.trans (hat.1 j (List.mem_cons_of_mem _ hj))
    · exact (hsame j).state.trans (hat.2 j hj)
  | @reqack i rest nr fr rxmitId hphase _ =>
    have hsame := fun j => sameSlice_requested x i j rxmitId
    rw [hphase] at hat
    refine h.move (p := .reqacking rest nr fr) rfl (fun j => ⟨(hsame j).state, (hsame j).bytes⟩)
      (reduceSliceSize_flags _ _) (hmovable hphase (by simp)) (by simp) rfl
      (PendingAt.congr (x := x) ⟨hat.1.tail, hat.2⟩ rfl (fun j => (hsame j).state) rfl)
  | asyncRound hasync => exact absurd hasync h.not_asyncRound
  | @form pos bytes m data hphase _ _ hfree _ _ _ =>
    rw [hphase] at hat
    have hself := formed_slices_self x pos bytes data
    have hother := fun j (hj : j ≠ pos) => formed_slices_of_ne x bytes data hj
    have hnew : ∀ j, (formed x pos bytes data).phase = .encoding j ∨
        (formed x pos bytes data).phase = .sending j ↔ j = pos := by
      intro j
      have hp : (formed x pos bytes data).phase
        = if x.config.hasFlag flagFec ∧ bytes > 0 then .encoding pos else .sending pos := rfl
      rw [hp]
      split
      · simp [eq_comm]
      · simp [eq_comm]
    have hxmitted : ∀ j, ((formed x pos bytes data).slices j).state = .xmitted →
        j ≠ pos ∧ (formed x pos bytes data).slices j = x.slices j := by
      intro j hj
      have hjp : j ≠ pos := fun hjp => by
        rw [hjp, hself] at hj
        cases hj
      exact ⟨hjp, hother j hjp⟩
    have hpending : ∀ j ∈ x.pending, ((formed x pos bytes data).slices j).state = .xmitted := by
      intro j hj
      have hjp : j ≠ pos := fun hjp => by
        have := hat j hj
        rw [hjp, hfree] at this
        cases this
      rw [hother j hjp]
      exact hat j hj
    refine
      { nodup := h.nodup
        notAcked := fun j => ?_
        new := fun j hj => (hnew j).mpr ?_
        fresh := fun j hj => ?_
        xmitted := fun j hj => ?_
        async := fun ha j hj => ?_
        pendingAt := ?_ }
    · by_cases hjp : j = pos
      · rw [hjp, hself]
        simp [Slice.formed]
      · rw [hother j hjp]
        exact h.notAcked j
    · by_contra hjp
      rw [hother j hjp] at hj
      have := h.new j hj
      simp [hphase] at this
    · rw [(hnew j).mp hj, hself]
      rfl
    · obtain ⟨-, heq⟩ := hxmitted j hj
      rw [heq] at hj
      exact h.xmitted j hj
    · obtain ⟨-, heq⟩ := hxmitted j hj
      rw [heq] at hj ⊢
      exact h.async ha j hj
    · show PendingAt _ (if x.config.hasFlag flagFec ∧ bytes > 0 then Phase.encoding pos else .sending pos)
      split
      · exact hpending
      · exact hpending
  | finish hphase =>
    rw [hphase] at hat
    exact h.move (p := .returned) rfl (fun i => ⟨rfl, rfl⟩) rfl (hmovable hphase (by simp)) (by simp [finish]) rfl hat
  | @encode i fecData hphase _ =>
    have hsame : ∀ j, ((x.modify i fun s => { s with fecData := fecData }).slices j).state
        = (x.slices j).state ∧ ((x.modify i fun s => { s with fecData := fecData }).slices j).bytes
        = (x.slices j).bytes := by
      intro j
      by_cases hji : j = i
      · rw [hji, modify_slices_self]
        exact ⟨rfl, rfl⟩
      · rw [modify_slices_of_ne _ _ _ hji]
        exact ⟨rfl, rfl⟩
    rw [hphase] at hat
    refine
      { nodup := h.nodup
        notAcked := fun j => by rw [(hsame j).1]; exact h.notAcked j
        new := fun j hj => ?_
        fresh := fun j hj => ?_
        xmitted := fun j hj => h.xmitted j ((hsame j).1.symm.trans hj)
        async := fun ha j hj => (hsame j).2.trans (h.async ha j ((hsame j).1.symm.trans hj))
        pendingAt := fun j hj => (hsame j).1.trans (hat j hj) }
    · have hold := h.new j ((hsame j).1.symm.trans hj)
      rw [hphase] at hold
      simpa [or_comm] using hold
    · refine (hsame j).1.trans (h.fresh j ?_)
      rw [hphase]
      simpa [or_comm] using hj
  | @transmit i ds hphase _ hasync =>
    have hnew := h.fresh i (Or.inr hphase)
    rw [hphase] at hat
    have hnotin : i ∉ x.pending := fun hi => by
      have := hat i hi
      rw [hnew] at this
      cases this
    have hstate : ∀ j, ((requested (transmitted x i ds) i).slices j).state
        = if j = i then .xmitted else (x.slices j).state := by
      intro j
      by_cases hji : j = i
      · rw [if_pos hji, hji, requested_slices_self, transmitted_slices_self]
        rfl
      · rw [if_neg hji, requested_slices_of_ne _ hji, transmitted_slices_of_ne _ _ hji]
    have hbytes : ∀ j, ((requested (transmitted x i ds) i).slices j).bytes = (x.slices j).bytes := by
      intro j
      by_cases hji : j = i
      · rw [hji, requested_slices_self, transmitted_slices_self]
        rfl
      · rw [requested_slices_of_ne _ hji, transmitted_slices_of_ne _ _ hji]
    refine
      { nodup := ?_
        notAcked := fun j hj => ?_
        new := fun j hj => ?_
        fresh := fun j hj => by simp at hj
        xmitted := fun j hj => ?_
        async := fun ha j hj => (hbytes j).trans ?_
        pendingAt := fun j hj => (hstate j).trans ?_ }
    · exact List.nodup_append.mpr ⟨h.nodup, by simp, by
        rintro j hj _ hi rfl
        exact hnotin (List.mem_singleton.mp hi ▸ hj)⟩
    · have hj' := (hstate j).symm.trans hj
      split at hj'
      · cases hj'
      · exact h.notAcked j hj'
    · have hj' := (hstate j).symm.trans hj
      split at hj'
      · cases hj'
      · rename_i hji
        have := h.new j hj'
        rw [hphase] at this
        exact absurd (by simpa [eq_comm] using this) hji
    · have hj' := (hstate j).symm.trans hj
      split at hj'
      · rename_i hji
        exact List.mem_append_right _ (List.mem_singleton.mpr hji)
      · exact List.mem_append_left _ (h.xmitted j hj')
    · have ha' : x.config.hasFlag flagAsync = true :=
        (hasFlag_congr (reduceSliceSize_flags x.config _) flagAsync).symm.trans ha
      have hj' := (hstate j).symm.trans hj
      split at hj'
      · rename_i hji
        rw [hji]
        exact hasync ha'
      · exact h.async ha' j hj'
    · rcases List.mem_append.mp hj with hj | hj
      · have hji : j ≠ i := fun hji => hnotin (hji ▸ hj)
        rw [if_neg hji]
        exact hat j hj
      · rw [if_pos (List.mem_singleton.mp hj)]
  | @transmitAsync i ds c q hphase _ hconfig _ _ =>
    have hnew := h.fresh i (Or.inr hphase)
    have hself := released_slices_self (x.send ds) i c q
    have hother := fun j (hj : j ≠ i) => released_slices_of_ne (x.send ds) c q hj
    rw [hphase] at hat
    have hkeep : ∀ j, ((released (x.send ds) i c q).slices j).state ≠ .free →
        j ≠ i ∧ (released (x.send ds) i c q).slices j = x.slices j := by
      intro j hj
      have hji : j ≠ i := fun hji => hj (by rw [hji, hself])
      exact ⟨hji, hother j hji⟩
    refine
      { nodup := h.nodup
        notAcked := fun j hj => ?_
        new := fun j hj => ?_
        fresh := fun j hj => by simp at hj
        xmitted := fun j hj => ?_
        async := fun ha j hj => ?_
        pendingAt := fun j hj => ?_ }
    · have hj' : ((released (x.send ds) i c q).slices j).state = .acked := hj
      rw [(hkeep j (by simp [hj'])).2] at hj'
      exact h.notAcked j hj'
    · have hj' : ((released (x.send ds) i c q).slices j).state = .new := hj
      obtain ⟨hji, heq⟩ := hkeep j (by simp [hj'])
      rw [heq] at hj'
      have := h.new j hj'
      rw [hphase] at this
      exact absurd (by simpa [eq_comm] using this) hji
    · have hj' : ((released (x.send ds) i c q).slices j).state = .xmitted := hj
      rw [(hkeep j (by simp [hj'])).2] at hj'
      exact h.xmitted j hj'
    · have ha' : x.config.hasFlag flagAsync = true :=
        (hasFlag_congr (growSliceSize_flags hconfig) flagAsync).symm.trans ha
      have hj' : ((released (x.send ds) i c q).slices j).state = .xmitted := hj
      show ((released (x.send ds) i c q).slices j).bytes = 0
      obtain ⟨-, heq⟩ := hkeep j (by simp [hj'])
      rw [heq] at hj' ⊢
      exact h.async ha' j hj'
    · have hji : j ≠ i := fun hji => by
        have := hat j hj
        rw [hji, hnew] at this
        cases this
      show ((released (x.send ds) i c q).slices j).state = .xmitted
      rw [hother j hji]
      exact hat j hj
  | @timeout i rest rxmitId hphase _ =>
    have hsame := fun j => sameSlice_requested { x with db := afterDrop x i } i j rxmitId
    rw [hphase] at hat
    exact h.move (p := .top) rfl (fun j => ⟨(hsame j).state, (hsame j).bytes⟩)
      (reduceSliceSize_flags _ _) (hmovable hphase (by simp)) (by simp) rfl
      fun j hj => (hsame j).state.trans (hat j hj)
  | allDropped hphase _ =>
    rw [hphase] at hat
    exact h.move (p := .returned) rfl (fun i => ⟨rfl, rfl⟩) rfl (hmovable hphase (by simp)) (by simp [finish]) rfl hat
  | readerWait _ hw =>
    rcases readerWait_frame hw with rfl | ⟨_, _, rfl⟩
    · exact h.beside rfl rfl rfl rfl rfl
    · exact h.beside rfl rfl rfl rfl rfl
  | readEnd _ => exact h.beside rfl rfl rfl rfl rfl
  | read _ _ => exact h.beside rfl rfl rfl rfl rfl
  | readerConsumed _ _ => exact h.beside rfl rfl rfl rfl rfl
  | readerWrite _ _ => exact h.beside rfl rfl rfl rfl rfl
  | readerProduced _ _ => exact h.beside rfl rfl rfl rfl rfl

end Control

theorem start_config {config : NetConfig} {db : ParticipantsDb} {x : Sender}
    (h : Sender.start config db = some x) :
    ∃ n m d, x.config = { config with sliceSize := n, maxSliceSize := m, discovery := d } := by
  simp only [Sender.start, Option.bind_eq_bind, Option.bind_eq_some_iff] at h
  obtain ⟨fifo, -, nrFec, -, c₁, h₁, c₂, h₂, h⟩ := h
  obtain rfl := Option.some.inj h
  have hfirst : ∃ n d, c₁ = { config with sliceSize := n, discovery := d } := by
    rw [NetConfig.firstSliceSize] at h₁
    split at h₁
    · obtain ⟨_, -, rfl⟩ := Option.map_eq_some_iff.mp h₁
      exact ⟨_, _, rfl⟩
    · exact ⟨_, _, (Option.some.inj h₁).symm⟩
  have hfec : ∃ n m, c₂ = { c₁ with sliceSize := n, maxSliceSize := m } := by
    rw [NetConfig.limitFec] at h₂
    split at h₂
    · obtain ⟨_, -, rfl⟩ := Option.map_eq_some_iff.mp h₂
      exact ⟨_, _, rfl⟩
    · exact ⟨_, _, (Option.some.inj h₂).symm⟩
  obtain ⟨_, _, rfl⟩ := hfirst
  obtain ⟨_, _, rfl⟩ := hfec
  rw [NetConfig.limitSliceSize]
  split
  · exact ⟨_, _, _, rfl⟩
  · exact ⟨_, _, _, rfl⟩

theorem start_flags {config : NetConfig} {db : ParticipantsDb} {x : Sender}
    (h : Sender.start config db = some x) : x.config.flags = config.flags := by
  obtain ⟨_, _, _, hconfig⟩ := start_config h
  rw [hconfig]

theorem start_blockSize {config : NetConfig} {db : ParticipantsDb} {x : Sender}
    (h : Sender.start config db = some x) : x.config.blockSize = config.blockSize := by
  obtain ⟨_, _, _, hconfig⟩ := start_config h
  rw [hconfig]

theorem control_start {config : NetConfig} {db : ParticipantsDb} {x : Sender}
    (h : Sender.start config db = some x) : Control x := by
  simp only [Sender.start, Option.bind_eq_bind, Option.bind_eq_some_iff] at h
  obtain ⟨fifo, -, nrFec, -, c₁, -, c₂, -, h⟩ := h
  obtain rfl := Option.some.inj h
  exact
    { nodup := List.nodup_nil
      notAcked := fun i hi => by cases hi
      new := fun i hi => by cases hi
      fresh := fun i hi => by simp at hi
      xmitted := fun i hi => by cases hi
      async := fun _ i hi => by cases hi
      pendingAt := fun i hi => absurd hi List.not_mem_nil }

end Udpcast.SendData
