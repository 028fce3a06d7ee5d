import Mathlib.Data.Nat.ModEq
import Mathlib.Tactic.Common

/-!
# The produce/consume counters (produconsum.rs)

A queue keeps two counters modulo twice its size.  `Counts` relates them to the unbounded totals
of all bytes produced and consumed, from which the amount waiting and the positions are read off.
A call that ends the program (`fatal`, or an arithmetic overflow) has the result `none`.
-/

namespace Udpcast

/-- `Inner`, without `consumer_waiting`. -/
structure Inner where
  produced : ℕ
  consumed : ℕ
  atEnd : Bool
  deriving DecidableEq

/-- `Produconsum`, without its lock, condition variable and name. -/
structure Produconsum where
  size : ℕ
  inner : Inner
  deriving DecidableEq

namespace Produconsum

/-- `Produconsum::new` (produconsum.rs:19-31). -/
def new (size : ℕ) : Produconsum := ⟨size, ⟨0, 0, false⟩⟩

/-- `get_produced_amount` (produconsum.rs:33-41). -/
def getProducedAmount (inner : Inner) (size : ℕ) : ℕ :=
  if inner.produced < inner.consumed then inner.produced + 2 * size - inner.consumed
  else inner.produced - inner.consumed

/-- `produce` (produconsum.rs:43-74). -/
def produce (q : Produconsum) (amount : ℕ) : Option Produconsum :=
  if amount > q.size then none
  else
    let produced := q.inner.produced + amount
    let produced := if produced ≥ 2 * q.size then produced - 2 * q.size else produced
    let consumed := q.inner.consumed
    if produced > consumed + q.size then none
    else if produced < consumed ∧ (consumed < q.size ∨ produced > consumed - q.size) then none
    else some { q with inner.produced := produced }

/-- `produce_end` (produconsum.rs:76-82). -/
def produceEnd (q : Produconsum) : Produconsum := { q with inner.atEnd := true }

/-- `get_waiting` (produconsum.rs:84-87). -/
def getWaiting (q : Produconsum) : ℕ := getProducedAmount q.inner q.size

/-- `get_consumer_position` and `get_producer_position` (produconsum.rs:89-97). -/
def getConsumerPosition (q : Produconsum) : ℕ := q.inner.consumed % q.size
def getProducerPosition (q : Produconsum) : ℕ := q.inner.produced % q.size

/-- `consumed` (produconsum.rs:103-112). -/
def consumed (q : Produconsum) (amount : ℕ) : Option Produconsum :=
  if amount > 2 * q.size then none
  else if q.inner.consumed ≥ 2 * q.size - amount then
    some { q with inner.consumed := q.inner.consumed + amount - 2 * q.size }
  else some { q with inner.consumed := q.inner.consumed + amount }

/-- `consume` (produconsum.rs:162-165): the amount that is waiting, once it is at least `amount`
or the end is marked; `none` while the call waits. -/
def consume (q : Produconsum) (amount : ℕ) : Option ℕ :=
  if amount ≤ q.getWaiting ∨ q.inner.atEnd then some q.getWaiting else none

/-- `consume_contiguous_min_amount` (produconsum.rs:167-178). -/
def consumeContiguousMinAmount (q : Produconsum) (amount : ℕ) : Option ℕ :=
  (q.consume amount).map fun n =>
    let l := q.size - q.inner.consumed % q.size
    if n > l then l else n

/-! ### Totals -/

/-- `P` bytes have been produced in total, and `C` of them consumed. -/
structure Counts (q : Produconsum) (P C : ℕ) : Prop where
  le : C ≤ P
  fits : P ≤ C + q.size
  pos : 0 < q.size
  produced : q.inner.produced = P % (2 * q.size)
  consumed : q.inner.consumed = C % (2 * q.size)

theorem counts_new {size : ℕ} (h : 0 < size) : Counts (new size) 0 0 :=
  ⟨le_rfl, Nat.zero_le _, h, rfl, rfl⟩

variable {q q' : Produconsum} {P C n : ℕ}

/-- Two totals at most one size apart, modulo twice the size. -/
theorem mod_cases {s : ℕ} (hs : 0 < s) (hle : C ≤ P) (hfits : P ≤ C + s) :
    (P % (2 * s) = C % (2 * s) + (P - C) ∧ C % (2 * s) + (P - C) < 2 * s) ∨
      (P % (2 * s) + 2 * s = C % (2 * s) + (P - C) ∧ 2 * s ≤ C % (2 * s) + (P - C)) := by
  obtain ⟨d, rfl⟩ := Nat.exists_eq_add_of_le hle
  have hC : C % (2 * s) < 2 * s := Nat.mod_lt _ (by omega)
  have hmod : (C + d) % (2 * s) = (C % (2 * s) + d) % (2 * s) := by rw [Nat.mod_add_mod]
  rw [Nat.add_sub_cancel_left]
  rcases Nat.lt_or_ge (C % (2 * s) + d) (2 * s) with hlt | hge
  · exact Or.inl ⟨by rw [hmod, Nat.mod_eq_of_lt hlt], hlt⟩
  · refine Or.inr ⟨?_, hge⟩
    rw [hmod, Nat.mod_eq_sub_mod hge, Nat.mod_eq_of_lt (by omega)]
    omega

theorem Counts.getWaiting (h : Counts q P C) : q.getWaiting = P - C := by
  have hC : C % (2 * q.size) < 2 * q.size := Nat.mod_lt _ (by have := h.pos; omega)
  rw [Produconsum.getWaiting, getProducedAmount, h.produced, h.consumed]
  rcases mod_cases h.pos h.le h.fits with ⟨hP, -⟩ | ⟨hP, -⟩
  · rw [if_neg (by omega)]
    omega
  · have := h.fits
    have := h.pos
    rw [if_pos (by omega)]
    omega

theorem Counts.getConsumerPosition (h : Counts q P C) : q.getConsumerPosition = C % q.size := by
  rw [Produconsum.getConsumerPosition, h.consumed, Nat.mod_mod_of_dvd _ (Nat.dvd_mul_left ..)]

theorem Counts.getProducerPosition (h : Counts q P C) : q.getProducerPosition = P % q.size := by
  rw [Produconsum.getProducerPosition, h.produced, Nat.mod_mod_of_dvd _ (Nat.dvd_mul_left ..)]

theorem Counts.produce_eq (h : Counts q P C) (hn : P - C + n ≤ q.size) :
    ∃ q', q.produce n = some q' ∧ Counts q' (P + n) C ∧ q'.inner.atEnd = q.inner.atEnd ∧ q'.size = q.size := by
  have hpos := h.pos
  have hle := h.le
  have hC : C % (2 * q.size) < 2 * q.size := Nat.mod_lt _ (by omega)
  have hP : P % (2 * q.size) < 2 * q.size := Nat.mod_lt _ (by omega)
  have hnew : (P + n) % (2 * q.size) = if P % (2 * q.size) + n ≥ 2 * q.size
      then P % (2 * q.size) + n - 2 * q.size else P % (2 * q.size) + n := by
    rw [← Nat.mod_add_mod]
    split
    · rename_i hge
      rw [Nat.mod_eq_sub_mod hge, Nat.mod_eq_of_lt (by omega)]
    · rename_i hlt
      rw [Nat.mod_eq_of_lt (by omega)]
  have hcases := mod_cases hpos (show C ≤ P + n by omega) (show P + n ≤ C + q.size by omega)
  refine ⟨{ q with inner.produced := (P + n) % (2 * q.size) }, ?_,
    ⟨by omega, by show P + n ≤ C + q.size; omega, hpos, rfl, h.consumed⟩, rfl, rfl⟩
  rw [Produconsum.produce, if_neg (by omega)]
  simp only [h.produced, h.consumed, ← hnew]
  rcases hcases with ⟨hc, hlt⟩ | ⟨hc, hge⟩
  · rw [if_neg (by omega), if_neg (by omega)]
  · rw [if_neg (by omega), if_neg (by omega)]

theorem Counts.consumed_eq (h : Counts q P C) (hn : C + n ≤ P) :
    ∃ q', q.consumed n = some q' ∧ Counts q' P (C + n) ∧ q'.inner.atEnd = q.inner.atEnd ∧ q'.size = q.size := by
  have hpos := h.pos
  have hfits := h.fits
  have hC : C % (2 * q.size) < 2 * q.size := Nat.mod_lt _ (by omega)
  have hnew : (C + n) % (2 * q.size) = if C % (2 * q.size) ≥ 2 * q.size - n
      then C % (2 * q.size) + n - 2 * q.size else C % (2 * q.size) + n := by
    rw [← Nat.mod_add_mod]
    split
    · rename_i hge
      rw [Nat.mod_eq_sub_mod (by omega), Nat.mod_eq_of_lt (by omega)]
    · rename_i hlt
      rw [Nat.mod_eq_of_lt (by omega)]
  refine ⟨{ q with inner.consumed := (C + n) % (2 * q.size) }, ?_,
    ⟨hn, by show P ≤ C + n + q.size; omega, hpos, h.produced, rfl⟩, rfl, rfl⟩
  rw [Produconsum.consumed, if_neg (by omega)]
  simp only [h.consumed, hnew]
  split
  · rfl
  · rfl

theorem Counts.produceEnd (h : Counts q P C) : Counts q.produceEnd P C :=
  ⟨h.le, h.fits, h.pos, h.produced, h.consumed⟩

theorem produce_atEnd (h : q.produce n = some q') : q'.inner.atEnd = q.inner.atEnd := by
  simp only [Produconsum.produce] at h
  generalize (if q.inner.produced + n ≥ 2 * q.size then q.inner.produced + n - 2 * q.size
    else q.inner.produced + n) = produced at h
  split at h
  · cases h
  split at h
  · cases h
  split at h
  · cases h
  · rw [← Option.some.inj h]

theorem consumed_atEnd (h : q.consumed n = some q') : q'.inner.atEnd = q.inner.atEnd := by
  rw [Produconsum.consumed] at h
  split at h
  · cases h
  split at h
  · rw [← Option.some.inj h]
  · rw [← Option.some.inj h]

/-- The counters stay below twice the size. -/
theorem produce_within (h : q.produce n = some q') (hlt : q.inner.produced < 2 * q.size) :
    q'.size = q.size ∧ q'.inner.consumed = q.inner.consumed ∧ q'.inner.produced < 2 * q.size := by
  simp only [Produconsum.produce] at h
  generalize hp : (if q.inner.produced + n ≥ 2 * q.size then q.inner.produced + n - 2 * q.size
    else q.inner.produced + n) = produced at h
  split at h
  · cases h
  rename_i hn
  split at h
  · cases h
  split at h
  · cases h
  · obtain rfl := Option.some.inj h
    refine ⟨rfl, rfl, ?_⟩
    show produced < 2 * q.size
    rw [← hp]
    split
    · omega
    · omega

theorem consumed_within (h : q.consumed n = some q') (hlt : q.inner.consumed < 2 * q.size) :
    q'.size = q.size ∧ q'.inner.produced = q.inner.produced ∧ q'.inner.consumed < 2 * q.size := by
  rw [Produconsum.consumed] at h
  split at h
  · cases h
  split at h
  · obtain rfl := Option.some.inj h
    refine ⟨rfl, rfl, ?_⟩
    show q.inner.consumed + n - 2 * q.size < 2 * q.size
    omega
  · obtain rfl := Option.some.inj h
    refine ⟨rfl, rfl, ?_⟩
    show q.inner.consumed + n < 2 * q.size
    omega

theorem produce_size (h : q.produce n = some q') : q'.size = q.size := by
  simp only [Produconsum.produce] at h
  generalize (if q.inner.produced + n ≥ 2 * q.size then q.inner.produced + n - 2 * q.size
    else q.inner.produced + n) = produced at h
  split at h
  · cases h
  split at h
  · cases h
  split at h
  · cases h
  · rw [← Option.some.inj h]

theorem consumed_size (h : q.consumed n = some q') : q'.size = q.size := by
  rw [Produconsum.consumed] at h
  split at h
  · cases h
  split at h
  · rw [← Option.some.inj h]
  · rw [← Option.some.inj h]

/-- A wait that returns with nothing has found the end. -/
theorem consumeContiguousMinAmount_zero (hpos : 0 < q.size) {amount : ℕ} (hamount : 0 < amount)
    (h : q.consumeContiguousMinAmount amount = some 0) : q.getWaiting = 0 ∧ q.inner.atEnd = true := by
  obtain ⟨m, hm, hzero⟩ := Option.map_eq_some_iff.mp h
  have hlt : q.inner.consumed % q.size < q.size := Nat.mod_lt _ hpos
  have hm0 : m = 0 := by
    simp only at hzero
    split at hzero
    · omega
    · exact hzero
  rw [Produconsum.consume] at hm
  split at hm
  · rename_i hready
    have hwaiting := Option.some.inj hm
    exact ⟨by omega, hready.resolve_left (by omega)⟩
  · cases hm

theorem Counts.consume (h : Counts q P C) {amount m : ℕ} (hw : q.consume amount = some m) :
    m = P - C ∧ (amount ≤ P - C ∨ q.inner.atEnd = true) := by
  rw [Produconsum.consume, h.getWaiting] at hw
  split at hw
  · rename_i hready
    exact ⟨(Option.some.inj hw).symm, hready⟩
  · cases hw

/-- A contiguous amount ends at the wrap of the ring at the latest. -/
theorem Counts.consumeContiguousMinAmount (h : Counts q P C) {amount m : ℕ}
    (hw : q.consumeContiguousMinAmount amount = some m) :
    m ≤ P - C ∧ C % q.size + m ≤ q.size ∧ (amount ≤ P - C ∨ q.inner.atEnd = true)
      ∧ (m = 0 → P - C = 0) := by
  obtain ⟨n, hn, hm⟩ := Option.map_eq_some_iff.mp hw
  obtain ⟨rfl, hready⟩ := h.consume hn
  have hcell : q.inner.consumed % q.size = C % q.size := h.getConsumerPosition
  have hlt : C % q.size < q.size := Nat.mod_lt _ h.pos
  simp only [hcell] at hm
  refine ⟨?_, ?_, hready, ?_⟩
  all_goals
    split at hm
    · omega
    · omega

end Produconsum

end Udpcast
