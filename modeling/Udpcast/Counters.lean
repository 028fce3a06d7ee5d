import Udpcast.Lib.Run
import Udpcast.Produconsum

/-!
# The queue against unbounded counters

`produce` is meant to end the program when the ring would overflow.  Its test compares counters
modulo twice the size, and so does not see an overflow by a whole size: a full ring to which one
more size is added looks like an empty one.  Without checked arithmetic the difference
`consumed - self.size` also wraps around, and the test misses what has been produced beyond the
wrap of the counter while the consumer is in the first half.
-/

namespace Udpcast.Produconsum

/-- How a call ends the program: with `fatal`, or with a subtraction below zero. -/
inductive Abort where
  | fatal
  | underflow
  deriving DecidableEq

/-- `a - b` in `usize`, in a build with or without checked arithmetic. -/
def subUsize (checks : Bool) (a b : ℕ) : Option ℕ :=
  if b ≤ a then some (a - b) else if checks then none else some (a + 2 ^ 64 - b)

/-- `produce` (produconsum.rs:43-74): the queue as the call leaves it, and how it ends the program. -/
def produceCall (checks : Bool) (q : Produconsum) (amount : ℕ) : Produconsum × Option Abort :=
  if amount > q.size then (q, some .fatal)
  else
    let produced := q.inner.produced + amount
    let produced := if produced ≥ 2 * q.size then produced - 2 * q.size else produced
    let consumed := q.inner.consumed
    if produced > consumed + q.size then (q, some .fatal)
    else if produced < consumed then
      match subUsize checks consumed q.size with
      | none => (q, some .underflow)
      | some limit =>
        if produced > limit then (q, some .fatal) else ({ q with inner.produced := produced }, none)
    else ({ q with inner.produced := produced }, none)

/-- A call with its totals: what is produced and consumed. -/
inductive Call where
  | produce (amount : ℕ)
  | consumed (amount : ℕ)

/-- `produce` and `consumed` as steps; a call that ends the program is not one. -/
def step (checks : Bool) (q : Produconsum) : Call → Option Produconsum
  | .produce amount =>
    match q.produceCall checks amount with
    | (q', none) => some q'
    | (_, some _) => none
  | .consumed amount => q.consumed amount

/-- The totals of all calls. -/
def total (_ : Produconsum) (a : Call) (_ : Produconsum) (t : ℕ × ℕ) : ℕ × ℕ :=
  match a with
  | .produce amount => (t.1 + amount, t.2)
  | .consumed amount => (t.1, t.2 + amount)

/-- The consumer takes no more than what is waiting. -/
def WithinWaiting (p : Produconsum × ℕ × ℕ) : Call → Prop
  | .produce _ => True
  | .consumed amount => amount ≤ p.1.getWaiting

/-- An overflow that the test does not see: a whole size into a full ring, or without checked
arithmetic beyond the wrap of `produced` while `consumed` is below the size. -/
def Missed (checks : Bool) (size P C amount : ℕ) : Prop :=
  P - C = size ∧ amount = size ∨
    checks = false ∧ amount ≤ size ∧ C % (2 * size) < size ∧ 2 * size ≤ C % (2 * size) + (P - C + amount)

/-- No overflow is missed. -/
def Seen (checks : Bool) (size : ℕ) (p : Produconsum × ℕ × ℕ) : Call → Prop
  | .produce amount => ¬ Missed checks size p.2.1 p.2.2 amount
  | .consumed amount => amount ≤ p.1.getWaiting

variable {q q' : Produconsum} {P C n : ℕ} {checks : Bool}

theorem subUsize_of_le {a b : ℕ} (h : b ≤ a) : subUsize checks a b = some (a - b) := if_pos h

theorem subUsize_of_lt {a b : ℕ} (h : a < b) :
    subUsize checks a b = if checks then none else some (a + 2 ^ 64 - b) := if_neg (by omega)

/-- A call either ends the program and leaves the queue, or sets the counter. -/
theorem produceCall_cases (checks : Bool) (q : Produconsum) (n : ℕ) :
    (∃ a, q.produceCall checks n = (q, some a)) ∨
      n ≤ q.size ∧ q.produceCall checks n = ({ q with
        inner.produced := if q.inner.produced + n ≥ 2 * q.size then q.inner.produced + n - 2 * q.size
          else q.inner.produced + n }, none) := by
  simp only [produceCall]
  generalize (if q.inner.produced + n ≥ 2 * q.size then q.inner.produced + n - 2 * q.size
    else q.inner.produced + n) = produced
  by_cases hsize : n > q.size
  · rw [if_pos hsize]
    exact Or.inl ⟨_, rfl⟩
  rw [if_neg hsize]
  by_cases hover : produced > q.inner.consumed + q.size
  · rw [if_pos hover]
    exact Or.inl ⟨_, rfl⟩
  rw [if_neg hover]
  by_cases hlt : produced < q.inner.consumed
  · rw [if_pos hlt]
    cases subUsize checks q.inner.consumed q.size with
    | none => exact Or.inl ⟨_, rfl⟩
    | some limit =>
      by_cases hlimit : produced > limit
      · exact Or.inl ⟨_, if_pos hlimit⟩
      · exact Or.inr ⟨Nat.le_of_not_gt hsize, if_neg hlimit⟩
  · rw [if_neg hlt]
    exact Or.inr ⟨Nat.le_of_not_gt hsize, rfl⟩

theorem step_produce (q : Produconsum) (n : ℕ) : step true q (.produce n) = q.produce n := by
  simp only [step, produceCall, produce]
  generalize (if q.inner.produced + n ≥ 2 * q.size then q.inner.produced + n - 2 * q.size
    else q.inner.produced + n) = produced
  by_cases hsize : n > q.size
  · rw [if_pos hsize, if_pos hsize]
  rw [if_neg hsize, if_neg hsize]
  by_cases hover : produced > q.inner.consumed + q.size
  · rw [if_pos hover, if_pos hover]
  rw [if_neg hover, if_neg hover]
  by_cases hlt : produced < q.inner.consumed
  · rw [if_pos hlt]
    by_cases hhalf : q.inner.consumed < q.size
    · rw [subUsize_of_lt hhalf, if_pos rfl, if_pos ⟨hlt, Or.inl hhalf⟩]
    · rw [subUsize_of_le (Nat.le_of_not_gt hhalf)]
      by_cases hlimit : produced > q.inner.consumed - q.size
      · simp only [if_pos hlimit]
        rw [if_pos ⟨hlt, Or.inr hlimit⟩]
      · simp only [if_neg hlimit]
        rw [if_neg fun h => h.2.elim hhalf hlimit]
  · rw [if_neg hlt, if_neg fun h => hlt h.1]

/-- The test for an overflow, where `produced` is the counter after the call. -/
theorem aborts_iff_test (checks : Bool) (q : Produconsum) (n : ℕ) {produced : ℕ}
    (hproduced : (if q.inner.produced + n ≥ 2 * q.size then q.inner.produced + n - 2 * q.size
      else q.inner.produced + n) = produced) :
    (q.produceCall checks n).2 ≠ none ↔ n > q.size ∨ produced > q.inner.consumed + q.size ∨
      produced < q.inner.consumed ∧
        ((subUsize checks q.inner.consumed q.size).elim True fun limit => produced > limit) := by
  simp only [produceCall, hproduced]
  by_cases hsize : n > q.size
  · simp [hsize]
  by_cases hover : produced > q.inner.consumed + q.size
  · simp [hsize, hover]
  by_cases hlt : produced < q.inner.consumed
  · cases subUsize checks q.inner.consumed q.size with
    | none => simp [hsize, hover, hlt]
    | some limit =>
      by_cases hlimit : produced > limit
      · simp [hsize, hover, hlt, hlimit]
      · simp [hsize, hover, hlt, hlimit]
  · simp [hsize, hover, hlt]

/-- In a queue with the totals `P` and `C` the call ends the program when the ring would overflow,
except where the overflow is missed. -/
theorem Counts.aborts_iff (h : Counts q P C) (hfit : q.size < 2 ^ 64) :
    (q.produceCall checks n).2 ≠ none ↔ P - C + n > q.size ∧ ¬ Missed checks q.size P C n := by
  have hpos := h.pos
  have hle := h.le
  have hfits := h.fits
  have hC : C % (2 * q.size) < 2 * q.size := Nat.mod_lt _ (by omega)
  have hmod := mod_cases hpos hle hfits
  rw [aborts_iff_test checks q n rfl, h.produced, h.consumed, Missed]
  generalize C % (2 * q.size) = c at hC hmod ⊢
  generalize P % (2 * q.size) = p at hmod ⊢
  by_cases hsize : n > q.size
  · exact ⟨fun _ => ⟨by omega, by omega⟩, fun _ => Or.inl hsize⟩
  by_cases hhalf : c < q.size
  · rw [subUsize_of_lt hhalf]
    cases checks with
    | true =>
      simp only [if_true, Option.elim_none, Bool.true_eq_false, false_and, or_false, and_true]
      split
      · omega
      · omega
    | false =>
      simp only [Bool.false_eq_true, if_false, Option.elim_some, true_and]
      split
      · omega
      · omega
  · rw [subUsize_of_le (Nat.le_of_not_gt hhalf)]
    simp only [Option.elim_some]
    split
    · omega
    · omega

theorem Counts.produceCall_eq (h : Counts q P C) (hfit : q.size < 2 ^ 64) (hn : P - C + n ≤ q.size) :
    ∃ q', q.produceCall checks n = (q', none) ∧ Counts q' (P + n) C ∧ q'.size = q.size := by
  obtain ⟨q', hq', hcounts, -, hsize⟩ := h.produce_eq hn
  rcases produceCall_cases checks q n with ⟨a, ha⟩ | ⟨-, hset⟩
  · have habort : (q.produceCall checks n).2 ≠ none := by
      rw [ha]
      exact Option.some_ne_none a
    have := ((h.aborts_iff hfit).mp habort).1
    omega
  · rcases produceCall_cases true q n with ⟨a, ha⟩ | ⟨-, hset'⟩
    · rw [← step_produce, step, ha] at hq'
      cases hq'
    · rw [← step_produce, step, hset'] at hq'
      obtain rfl := Option.some.inj hq'
      exact ⟨_, hset, hcounts, rfl⟩

/-! ### All runs -/

/-- A step keeps the totals as long as no overflow is missed. -/
theorem Counts.step {a : Call} {t : ℕ × ℕ} (h : Counts q t.1 t.2) (hfit : q.size < 2 ^ 64)
    (hok : Seen checks q.size (q, t) a) (hs : step checks q a = some q') :
    Counts q' (total q a q' t).1 (total q a q' t).2 ∧ q'.size = q.size := by
  cases a with
  | produce n =>
    have hend : (q.produceCall checks n).2 = none := by
      rw [Produconsum.step] at hs
      split at hs
      · rename_i heq
        rw [heq]
      · cases hs
    have hroom : t.1 - t.2 + n ≤ q.size := by
      by_contra hover
      exact (h.aborts_iff hfit).mpr ⟨by omega, hok⟩ hend
    obtain ⟨q₁, hq₁, hcounts, hsame⟩ := h.produceCall_eq hfit hroom
    rw [Produconsum.step, hq₁] at hs
    obtain rfl := Option.some.inj hs
    exact ⟨hcounts, hsame⟩
  | consumed n =>
    have hwaiting : n ≤ t.1 - t.2 := h.getWaiting ▸ hok
    have hle := h.le
    obtain ⟨q₁, hq₁, hcounts, -, hsame⟩ := h.consumed_eq (n := n) (by omega)
    rw [Produconsum.step, hq₁] at hs
    obtain rfl := Option.some.inj hs
    exact ⟨hcounts, hsame⟩

theorem counts_run {size : ℕ} (hsize : 0 < size) (hfit : size < 2 ^ 64) {p : Produconsum × ℕ × ℕ}
    (hrun : Run.Reach (Run.observe (step checks) total) (Seen checks size) (new size, 0, 0) p) :
    Counts p.1 p.2.1 p.2.2 ∧ p.1.size = size := by
  refine hrun.invariant (I := fun p => Counts p.1 p.2.1 p.2.2 ∧ p.1.size = size)
    ⟨counts_new hsize, rfl⟩ fun p a p' ⟨hcounts, hsame⟩ hok hs => ?_
  obtain ⟨hstep, htotal⟩ := Run.observe_eq_some.mp hs
  have hkeep := hcounts.step (by rw [hsame]; exact hfit) (by rw [hsame]; exact hok) hstep
  rw [htotal]
  exact ⟨hkeep.1, hkeep.2.trans hsame⟩

/-- In every run without a missed overflow, whose consumer takes no more than what is waiting, the
queue is read off the totals, and `produce` ends the program and leaves the counters when the ring
would overflow, precisely if that overflow is not missed.  The sums of the source, each at most three
sizes, fit into `usize`. -/
theorem produce_refines (checks : Bool) (size : ℕ) (hsize : 0 < size) (hfit : 3 * size ≤ 2 ^ 64)
    (q : Produconsum) (P C : ℕ) (hrun : Run.Reach (Run.observe (step checks) total)
      (Seen checks size) (new size, 0, 0) (q, P, C)) :
    C ≤ P ∧ q.getWaiting = P - C ∧ q.getConsumerPosition = C % size ∧
      q.getProducerPosition = P % size ∧
      ∀ n, (((q.produceCall checks n).2 ≠ none ↔ P - C + n > size) ∧
        ((q.produceCall checks n).2 ≠ none → (q.produceCall checks n).1 = q)) ↔
          ¬ Missed checks size P C n := by
  obtain ⟨h, rfl⟩ : Counts q P C ∧ q.size = size := counts_run hsize (by omega) hrun
  have hfit' : q.size < 2 ^ 64 := by omega
  refine ⟨h.le, h.getWaiting, h.getConsumerPosition, h.getProducerPosition, fun n => ?_⟩
  have haborts : (q.produceCall checks n).2 ≠ none ↔ _ := h.aborts_iff hfit'
  constructor
  · rintro ⟨hiff, -⟩ hmissed
    have hover : P - C + n > q.size := by
      have hle := h.le
      have hfits := h.fits
      rcases hmissed with ⟨hfull, hn⟩ | ⟨-, -, hhalf, hwrap⟩
      · omega
      · omega
    exact (haborts.mp (hiff.mpr hover)).2 hmissed
  · intro hseen
    refine ⟨⟨fun habort => (haborts.mp habort).1, fun hover => haborts.mpr ⟨hover, hseen⟩⟩,
      fun habort => ?_⟩
    rcases produceCall_cases checks q n with ⟨a, ha⟩ | ⟨-, hset⟩
    · rw [ha]
    · rw [hset] at habort
      exact absurd rfl habort

theorem reach_full (checks : Bool) (ok : Produconsum × ℕ × ℕ → Call → Prop)
    (hok : ok (new 4, 0, 0) (.produce 4)) :
    Run.Reach (Run.observe (step checks) total) ok (new 4, 0, 0) (⟨4, ⟨4, 0, false⟩⟩, 4, 0) := by
  refine Run.Reach.next (.produce 4) Run.Reach.start hok ?_
  cases checks with
  | true => rfl
  | false => rfl

/-- Three more bytes do not fit into a full queue of four bytes. -/
theorem produce_refines_full : (produceCall true ⟨4, ⟨4, 0, false⟩⟩ 3).2 ≠ none := by
  have hrun := reach_full true (Seen true 4) (by simp [Seen, Missed])
  obtain ⟨-, -, -, -, h⟩ := produce_refines true 4 (by decide) (by decide) _ 4 0 hrun
  exact ((h 3).mpr (by simp [Missed])).1.mpr (by decide)

/-- Four more bytes are accepted by a full queue of four bytes, in both builds. -/
theorem produce_unseen : ∃ q P C,
    Run.Reach (Run.observe (step true) total) WithinWaiting (new 4, 0, 0) (q, P, C) ∧
    P - C + 4 > 4 ∧ (q.produceCall true 4).2 = none ∧ (q.produceCall false 4).2 = none :=
  ⟨_, 4, 0, reach_full true WithinWaiting trivial, by decide, by decide, by decide⟩

end Udpcast.Produconsum
