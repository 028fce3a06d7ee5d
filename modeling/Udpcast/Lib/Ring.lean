import Mathlib.Data.List.GetD
import Mathlib.Data.Nat.ModEq
import Mathlib.Data.Set.Lattice
import Mathlib.Order.CompletePartialOrder

/-!
# A ring of memory cells

The memory is a function of the cell number; a ring of `N` cells stores position `p` of an
unbounded stream in cell `p % N`.  Positions that are less than `N` apart never share a cell, so
regions of the stream that fit into one turn of the ring are independent of each other.
-/

namespace Ring

variable {α : Type*}

/-- The cells that hold the stream positions from `p` to `p + n`. -/
def cells (N p n : ℕ) : Set ℕ := {x | ∃ i < n, x = (p + i) % N}

/-- `buf[at..at + row.len()].copy_from_slice(row)` -/
def splice (start : ℕ) (row : List α) (mem : ℕ → α) : ℕ → α := fun x =>
  if start ≤ x then row.getD (x - start) (mem x) else mem x

/-- A copy into the ring that wraps at most once. -/
def write (N start : ℕ) (row : List α) (mem : ℕ → α) : ℕ → α :=
  splice 0 (row.drop (N - start)) (splice start (row.take (N - start)) mem)

/-- A copy out of the ring that wraps at most once. -/
def read (N start len : ℕ) (mem : ℕ → α) : List α :=
  (List.range (min len (N - start))).map (fun i => mem (start + i))
    ++ (List.range (len - (N - start))).map mem

/-- The contents of the stream positions from `p` to `p + n`. -/
def window (N p n : ℕ) (mem : ℕ → α) : List α := (List.range n).map fun i => mem ((p + i) % N)

/-! ### Positions and cells -/

theorem pos_eq_of_mod_eq {N a b : ℕ} (hab : a ≤ b) (hlt : b < a + N) (h : a % N = b % N) :
    a = b := by
  have hdvd : N ∣ b - a := (Nat.modEq_iff_dvd' hab).mp h
  have hzero : b - a = 0 := Nat.eq_zero_of_dvd_of_lt hdvd (by omega)
  omega

theorem mod_ne_of_lt {N a b : ℕ} (hab : a < b) (hlt : b < a + N) : a % N ≠ b % N := fun h => by
  have := pos_eq_of_mod_eq hab.le hlt h
  omega

theorem disjoint_cells {N p m q n : ℕ} (hpq : p + m ≤ q) (hqp : q + n ≤ p + N) :
    Disjoint (cells N p m) (cells N q n) := by
  refine Set.disjoint_left.mpr ?_
  rintro x ⟨i, hi, rfl⟩ ⟨j, hj, h⟩
  exact mod_ne_of_lt (by omega) (by omega) h

theorem cells_mod (N p n : ℕ) : cells N (p % N) n = cells N p n := by
  refine Set.ext fun x => ?_
  simp only [cells, Set.mem_ofPred_eq, Nat.mod_add_mod]

theorem cells_subset {N p q m n : ℕ} (hpq : p ≤ q) (h : q + m ≤ p + n) : cells N q m ⊆ cells N p n := by
  rintro x ⟨i, hi, rfl⟩
  exact ⟨q - p + i, by omega, by rw [← Nat.add_assoc, Nat.add_sub_of_le hpq]⟩

theorem mem_cells_self {N p n : ℕ} (hn : 0 < n) : p % N ∈ cells N p n := ⟨0, hn, rfl⟩

/-! ### Copies -/

theorem splice_apply (start : ℕ) (row : List α) (mem : ℕ → α) (x : ℕ) :
    splice start row mem x
      = if start ≤ x ∧ x < start + row.length then row.getD (x - start) (mem x) else mem x := by
  rw [splice]
  by_cases h : start ≤ x
  · by_cases hx : x < start + row.length
    · rw [if_pos h, if_pos ⟨h, hx⟩]
    · rw [if_pos h, if_neg (fun hh => hx hh.2), List.getD_eq_default _ _ (by omega)]
  · rw [if_neg h, if_neg (fun hh => h hh.1)]

/-- A copied byte is found at its stream position. -/
theorem write_apply {N p : ℕ} {row : List α} (hrow : row.length ≤ N) {i : ℕ} (hi : i < row.length)
    (mem : ℕ → α) (d : α) : write N (p % N) row mem ((p + i) % N) = row.getD i d := by
  have hN : p % N < N := Nat.mod_lt _ (by omega)
  have hmod : (p + i) % N = (p % N + i) % N := by rw [Nat.mod_add_mod]
  rw [hmod, write, splice_apply]
  by_cases hwrap : p % N + i < N
  · rw [Nat.mod_eq_of_lt hwrap, if_neg (by rw [List.length_drop]; omega), splice_apply,
      if_pos ⟨by omega, by rw [List.length_take]; omega⟩, Nat.add_sub_cancel_left]
    rw [List.getD_eq_getElem?_getD, List.getD_eq_getElem?_getD, List.getElem?_take, if_pos (by omega),
      List.getElem?_eq_getElem hi]
    rfl
  · have hcell : (p % N + i) % N = p % N + i - N := by
      rw [Nat.mod_eq_sub_mod (by omega), Nat.mod_eq_of_lt (by omega)]
    have hidx : N - p % N + (p % N + i - N - 0) = i := by omega
    rw [hcell, if_pos ⟨Nat.zero_le _, by rw [List.length_drop]; omega⟩,
      List.getD_eq_getElem?_getD, List.getD_eq_getElem?_getD, List.getElem?_drop, hidx,
      List.getElem?_eq_getElem hi]
    rfl

/-- A copy changes the cells of its region only. -/
theorem write_apply_of_not_mem {N p : ℕ} {row : List α} (hrow : row.length ≤ N) {x : ℕ}
    (hx : x ∉ cells N p row.length) (mem : ℕ → α) : write N (p % N) row mem x = mem x := by
  have hcell : ∀ i < row.length, x ≠ (p % N + i) % N := fun i hi h =>
    hx ⟨i, hi, by rw [h, Nat.mod_add_mod]⟩
  rcases Nat.eq_zero_or_pos N with rfl | hpos
  · have hnil : row = [] := List.eq_nil_of_length_eq_zero (by omega)
    subst hnil
    simp [write, splice]
  have hN : p % N < N := Nat.mod_lt _ hpos
  rw [write, splice_apply, if_neg, splice_apply, if_neg]
  · rintro ⟨hlo, hhi⟩
    rw [List.length_take] at hhi
    refine hcell (x - p % N) (by omega) ?_
    rw [Nat.mod_eq_of_lt (by omega)]
    omega
  · rintro ⟨-, hhi⟩
    rw [List.length_drop] at hhi
    refine hcell (N - p % N + x) (by omega) ?_
    have hsum : p % N + (N - p % N + x) = N + x := by omega
    rw [hsum, Nat.add_mod_left, Nat.mod_eq_of_lt (by omega)]

theorem read_eq_window {N p len : ℕ} (hpos : 0 < N) (hlen : len ≤ N) (mem : ℕ → α) :
    read N (p % N) len mem = window N p len mem := by
  have hN : p % N < N := Nat.mod_lt _ hpos
  have hsplit : len = min len (N - p % N) + (len - (N - p % N)) := by omega
  rw [read, window]
  conv_rhs => rw [hsplit, List.range_add, List.map_append, List.map_map]
  congr 1
  · refine List.map_congr_left fun i hi => ?_
    have hi' := List.mem_range.mp hi
    have hcell : (p + i) % N = p % N + i := by
      rw [← Nat.mod_add_mod, Nat.mod_eq_of_lt (show p % N + i < N by omega)]
    rw [hcell]
  · refine List.map_congr_left fun i hi => ?_
    have hi' := List.mem_range.mp hi
    have hfirst : min len (N - p % N) = N - p % N := by omega
    have hsum : p % N + (N - p % N + i) = N + i := by omega
    rw [Function.comp_apply, hfirst, ← Nat.mod_add_mod, hsum, Nat.add_mod_left,
      Nat.mod_eq_of_lt (show i < N by omega)]

/-! ### Windows -/

@[simp] theorem length_window (N p n : ℕ) (mem : ℕ → α) : (window N p n mem).length = n := by
  rw [window, List.length_map, List.length_range]

@[simp] theorem window_zero (N p : ℕ) (mem : ℕ → α) : window N p 0 mem = [] := rfl

theorem window_add (N p m n : ℕ) (mem : ℕ → α) :
    window N p (m + n) mem = window N p m mem ++ window N (p + m) n mem := by
  rw [window, List.range_add, List.map_append, List.map_map, window, window]
  congr 1
  refine List.map_congr_left fun i _ => ?_
  rw [Function.comp_apply, Nat.add_assoc]

theorem window_slice {N p a n len : ℕ} (h : a + n ≤ len) (mem : ℕ → α) :
    ((window N p len mem).drop a).take n = window N (p + a) n mem := by
  obtain ⟨rest, rfl⟩ := Nat.exists_eq_add_of_le h
  rw [window_add N p (a + n) rest, window_add N p a n, List.append_assoc,
    List.drop_left' (length_window ..), List.take_left' (length_window ..)]

theorem take_window {N p n len : ℕ} (h : n ≤ len) (mem : ℕ → α) :
    (window N p len mem).take n = window N p n mem := window_slice (a := 0) (by omega) mem

theorem window_mod (N p n : ℕ) (mem : ℕ → α) : window N (p % N) n mem = window N p n mem := by
  simp only [window, Nat.mod_add_mod]

theorem window_mod_add (N p a n : ℕ) (mem : ℕ → α) :
    window N (p % N + a) n mem = window N (p + a) n mem := by
  rw [← window_mod N (p % N + a), Nat.mod_add_mod, window_mod]

theorem window_congr {N p n : ℕ} {mem mem' : ℕ → α} (h : ∀ x ∈ cells N p n, mem x = mem' x) :
    window N p n mem = window N p n mem' :=
  List.map_congr_left fun i hi => h _ ⟨i, List.mem_range.mp hi, rfl⟩

/-- A copy leaves exactly the copied bytes in its region. -/
theorem window_write_self {N p : ℕ} {row : List α} (hrow : row.length ≤ N) (mem : ℕ → α) :
    window N p row.length (write N (p % N) row mem) = row := by
  refine List.ext_getElem (length_window ..) fun i hi hi' => ?_
  simp only [window, List.getElem_map, List.getElem_range]
  rw [write_apply hrow hi' mem row[i], List.getD_eq_getElem _ _ hi']

/-- A copy leaves the regions alone that share no cell with its own. -/
theorem window_write_of_disjoint {N p q n : ℕ} {row : List α} (hrow : row.length ≤ N)
    (h : Disjoint (cells N p row.length) (cells N q n)) (mem : ℕ → α) :
    window N q n (write N (p % N) row mem) = window N q n mem :=
  window_congr fun _ hx => write_apply_of_not_mem hrow (fun hx' => Set.disjoint_left.mp h hx' hx) mem

end Ring
