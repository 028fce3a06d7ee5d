import Mathlib.Data.List.GetD
import Mathlib.Data.List.Nodup

/-!
# Loops over a buffer

A buffer is a list that is read with a default and written in place.  The loops are those of
imperative code: every turn of the loop rewrites one cell, or swaps two cells, at an index that
depends on the turn.  Each loop comes with its length and with what it leaves in each cell.
-/

namespace Buffer

variable {α : Type*} (d : α)

theorem getD_set (l : List α) (i j : ℕ) (a : α) :
    (l.set i a).getD j d = if i = j ∧ i < l.length then a else l.getD j d := by
  simp only [List.getD_eq_getElem?_getD, List.getElem?_set]
  by_cases h : i = j
  · subst h
    by_cases hl : i < l.length
    · simp [hl]
    · simp [hl]
  · simp [h]

theorem ext_getD {l r : List α} (hlen : l.length = r.length)
    (h : ∀ i < l.length, l.getD i d = r.getD i d) : l = r := by
  refine List.ext_getElem hlen fun i hl hr => ?_
  have hi := h i hl
  rwa [List.getD_eq_getElem _ _ hl, List.getD_eq_getElem _ _ hr] at hi

theorem mapM_eq_some {α β : Type} {f : α → Option β} {g : α → β} {l : List α}
    (h : ∀ a ∈ l, f a = some (g a)) : l.mapM f = some (l.map g) := by
  induction l with
  | nil => rfl
  | cons a l ih =>
    rw [List.mapM_cons, h a List.mem_cons_self, ih fun b hb => h b (List.mem_cons_of_mem _ hb)]
    rfl

theorem length_foldl_set (ps : List (ℕ × α)) (l : List α) :
    (ps.foldl (fun l p => l.set p.1 p.2) l).length = l.length := by
  induction ps generalizing l with
  | nil => rfl
  | cons q ps ih => rw [List.foldl_cons, ih, List.length_set]

/-- A list of cells with new values, every cell once. -/
theorem getD_foldl_set {ps : List (ℕ × α)} {l : List α} (hnodup : (ps.map Prod.fst).Nodup)
    (hlt : ∀ p ∈ ps, p.1 < l.length) :
    (∀ p ∈ ps, (ps.foldl (fun l p => l.set p.1 p.2) l).getD p.1 d = p.2) ∧
      ∀ j ∉ ps.map Prod.fst, (ps.foldl (fun l p => l.set p.1 p.2) l).getD j d = l.getD j d := by
  induction ps generalizing l with
  | nil => exact ⟨fun p hp => absurd hp List.not_mem_nil, fun j _ => rfl⟩
  | cons q ps ih =>
    obtain ⟨hnew, hnodup⟩ := List.nodup_cons.mp hnodup
    have hq := hlt q List.mem_cons_self
    obtain ⟨hset, hrest⟩ := ih (l := l.set q.1 q.2) hnodup fun p hp => by
      rw [List.length_set]
      exact hlt p (List.mem_cons_of_mem _ hp)
    refine ⟨fun p hp => ?_, fun j hj => ?_⟩
    · rw [List.foldl_cons]
      rcases List.mem_cons.mp hp with rfl | hp
      · rw [hrest _ hnew, getD_set, if_pos ⟨rfl, hq⟩]
      · exact hset p hp
    · rw [List.map_cons, List.mem_cons, not_or] at hj
      rw [List.foldl_cons, hrest j hj.2, getD_set, if_neg fun hh => hj.1 hh.1.symm]

theorem stride_lt {start stride r n : ℕ} (hlt : start < stride) (hr : r < n) :
    start + r * stride < stride * n :=
  calc start + r * stride < stride + r * stride := Nat.add_lt_add_right hlt _
    _ = stride * (r + 1) := by rw [Nat.mul_add, Nat.mul_one, Nat.mul_comm, Nat.add_comm]
    _ ≤ stride * n := Nat.mul_le_mul_left _ hr

/-- Row `r` of `n` goes to cell `start + r * stride`. -/
theorem getD_stride {start stride n : ℕ} (hlt : start < stride) {rows l : List α}
    (hrows : rows.length = n) (hlen : l.length = stride * n) {j : ℕ} (hj : j < stride * n) :
    ((((List.range n).map fun r => start + r * stride).zip rows).foldl
        (fun l p => l.set p.1 p.2) l).getD j d
      = if j % stride = start then rows.getD (j / stride) d else l.getD j d := by
  have hfst : (((List.range n).map fun r => start + r * stride).zip rows).map Prod.fst
      = (List.range n).map fun r => start + r * stride :=
    List.map_fst_zip (Nat.le_of_eq (by rw [List.length_map, List.length_range, hrows]))
  have hnodup : ((List.range n).map fun r => start + r * stride).Nodup := by
    refine List.Nodup.map (fun a b hab => ?_) List.nodup_range
    exact Nat.eq_of_mul_eq_mul_right (by omega) (Nat.add_left_cancel hab)
  obtain ⟨hset, hrest⟩ := getD_foldl_set d (l := l) (hfst ▸ hnodup) fun p hp => by
    obtain ⟨r, hr, hpr⟩ := List.mem_map.mp (List.of_mem_zip hp).1
    rw [← hpr, hlen]
    exact stride_lt hlt (List.mem_range.mp hr)
  split
  · rename_i hmod
    have hr : j / stride < n := Nat.div_lt_of_lt_mul hj
    have hj' : start + j / stride * stride = j := by
      rw [← hmod]
      exact Nat.mod_add_div' j stride
    refine hset (j, rows.getD (j / stride) d) (List.mem_iff_getElem.mpr ⟨j / stride, ?_, ?_⟩)
    · rw [List.length_zip, List.length_map, List.length_range, hrows, Nat.min_self]
      exact hr
    · have hr' : j / stride < rows.length := by rw [hrows]; exact hr
      simp only [List.getElem_zip, List.getElem_map, List.getElem_range, hj',
        List.getD_eq_getElem _ _ hr']
  · rename_i hmod
    refine hrest j fun hin => hmod ?_
    rw [hfst] at hin
    obtain ⟨r, -, rfl⟩ := List.mem_map.mp hin
    rw [Nat.add_mul_mod_self_right, Nat.mod_eq_of_lt hlt]

/-- `for i in 0..n { buf[start + i] = g i buf[start + i] }` -/
def update (start n : ℕ) (g : ℕ → α → α) (buf : List α) : List α :=
  (List.range n).foldl (fun b i => b.set (start + i) (g i (b.getD (start + i) d))) buf

theorem update_succ (start n : ℕ) (g : ℕ → α → α) (buf : List α) :
    update d start (n + 1) g buf
      = (update d start n g buf).set (start + n)
          (g n ((update d start n g buf).getD (start + n) d)) := by
  simp only [update, List.range_succ, List.foldl_append, List.foldl_cons, List.foldl_nil]

@[simp] theorem length_update (start n : ℕ) (g : ℕ → α → α) (buf : List α) :
    (update d start n g buf).length = buf.length := by
  induction n with
  | zero => rfl
  | succ n ih => rw [update_succ, List.length_set, ih]

theorem getD_update (start n : ℕ) (g : ℕ → α → α) (buf : List α) (j : ℕ) :
    (update d start n g buf).getD j d
      = if start ≤ j ∧ j < start + n ∧ j < buf.length then g (j - start) (buf.getD j d)
        else buf.getD j d := by
  induction n with
  | zero =>
    have h : ¬(start ≤ j ∧ j < start + 0 ∧ j < buf.length) := by omega
    rw [if_neg h]
    rfl
  | succ n ih =>
    rw [update_succ, getD_set, length_update]
    by_cases hj : start + n = j ∧ start + n < buf.length
    · obtain ⟨rfl, hlt⟩ := hj
      have hold : ¬(start ≤ start + n ∧ start + n < start + n ∧ start + n < buf.length) := by
        omega
      have hnew : start ≤ start + n ∧ start + n < start + (n + 1) ∧ start + n < buf.length := by
        omega
      rw [if_neg hold] at ih
      rw [if_pos ⟨rfl, hlt⟩, if_pos hnew, ih, Nat.add_sub_cancel_left]
    · rw [if_neg hj, ih]
      have hiff : (start ≤ j ∧ j < start + n ∧ j < buf.length)
          ↔ (start ≤ j ∧ j < start + (n + 1) ∧ j < buf.length) := by omega
      simp only [hiff]

theorem getD_splice (l row : List α) {s : ℕ} (hs : s + row.length ≤ l.length) (j : ℕ) :
    (l.take s ++ row ++ l.drop (s + row.length)).getD j d
      = if s ≤ j ∧ j < s + row.length then row.getD (j - s) d else l.getD j d := by
  have htake : (l.take s).length = s := by rw [List.length_take]; omega
  simp only [List.getD_eq_getElem?_getD, List.append_assoc]
  by_cases h1 : j < s
  · rw [if_neg (by omega), List.getElem?_append_left (by omega), List.getElem?_take, if_pos h1]
  · rw [List.getElem?_append_right (by omega), htake]
    by_cases h2 : j < s + row.length
    · rw [if_pos (by omega), List.getElem?_append_left (by omega)]
    · have hidx : s + row.length + (j - s - row.length) = j := by omega
      rw [if_neg (by omega), List.getElem?_append_right (by omega), List.getElem?_drop, hidx]

/-- `buf.swap(a, b)` -/
def swap (a b : ℕ) (buf : List α) : List α := (buf.set a (buf.getD b d)).set b (buf.getD a d)

/-- `for i in 0..n { buf.swap(f i, g i) }` -/
def swapLoop (f g : ℕ → ℕ) (n : ℕ) (buf : List α) : List α :=
  (List.range n).foldl (fun b i => swap d (f i) (g i) b) buf

theorem swapLoop_succ (f g : ℕ → ℕ) (n : ℕ) (buf : List α) :
    swapLoop d f g (n + 1) buf = swap d (f n) (g n) (swapLoop d f g n buf) := by
  simp only [swapLoop, List.range_succ, List.foldl_append, List.foldl_cons, List.foldl_nil]

@[simp] theorem length_swapLoop (f g : ℕ → ℕ) (n : ℕ) (buf : List α) :
    (swapLoop d f g n buf).length = buf.length := by
  induction n with
  | zero => rfl
  | succ n ih => rw [swapLoop_succ, swap, List.length_set, List.length_set, ih]

theorem getD_swap (a b : ℕ) (buf : List α) (ha : a < buf.length) (hb : b < buf.length) (j : ℕ) :
    (swap d a b buf).getD j d
      = if b = j then buf.getD a d else if a = j then buf.getD b d else buf.getD j d := by
  rw [swap, getD_set, getD_set, List.length_set]
  simp only [ha, hb, and_true]

theorem getD_swapLoop_of_ne (f g : ℕ → ℕ) (n : ℕ) (buf : List α) (j : ℕ)
    (hf : ∀ i < n, f i < buf.length ∧ f i ≠ j) (hg : ∀ i < n, g i < buf.length ∧ g i ≠ j) :
    (swapLoop d f g n buf).getD j d = buf.getD j d := by
  induction n with
  | zero => rfl
  | succ n ih =>
    have hfn := hf n (by omega)
    have hgn := hg n (by omega)
    rw [swapLoop_succ, getD_swap d _ _ _ (by rw [length_swapLoop]; exact hfn.1)
      (by rw [length_swapLoop]; exact hgn.1), if_neg hgn.2, if_neg hfn.2]
    exact ih (fun i hi => hf i (by omega)) (fun i hi => hg i (by omega))

/-- With pairwise distinct cells, turn `i` of the loop exchanges the initial values at `f i` and
`g i`. -/
theorem getD_swapLoop (f g : ℕ → ℕ) (n : ℕ) (buf : List α)
    (hf : ∀ i < n, f i < buf.length) (hg : ∀ i < n, g i < buf.length)
    (hff : ∀ i < n, ∀ j < n, f i = f j → i = j) (hgg : ∀ i < n, ∀ j < n, g i = g j → i = j)
    (hfg : ∀ i < n, ∀ j < n, f i ≠ g j) (i : ℕ) (hi : i < n) :
    (swapLoop d f g n buf).getD (f i) d = buf.getD (g i) d
      ∧ (swapLoop d f g n buf).getD (g i) d = buf.getD (f i) d := by
  induction n with
  | zero => omega
  | succ n ih =>
    have hfn : f n < (swapLoop d f g n buf).length := by rw [length_swapLoop]; exact hf n (by omega)
    have hgn : g n < (swapLoop d f g n buf).length := by rw [length_swapLoop]; exact hg n (by omega)
    rw [swapLoop_succ, getD_swap d _ _ _ hfn hgn, getD_swap d _ _ _ hfn hgn]
    rcases Nat.lt_succ_iff_lt_or_eq.mp hi with hlt | rfl
    · have hne1 : g n ≠ f i := fun h => hfg i hi n (by omega) h.symm
      have hne2 : f n ≠ f i := fun h => by have := hff n (by omega) i hi h; omega
      have hne3 : g n ≠ g i := fun h => by have := hgg n (by omega) i hi h; omega
      have hne4 : f n ≠ g i := hfg n (by omega) i hi
      rw [if_neg hne1, if_neg hne2, if_neg hne3, if_neg hne4]
      exact ih (fun i hi => hf i (by omega)) (fun i hi => hg i (by omega))
        (fun i hi j hj => hff i (by omega) j (by omega))
        (fun i hi j hj => hgg i (by omega) j (by omega))
        (fun i hi j hj => hfg i (by omega) j (by omega)) hlt
    · -- the last turn meets cells that the earlier turns left alone
      have hkeepf := getD_swapLoop_of_ne d f g i buf (f i)
        (fun j hj => ⟨hf j (by omega), fun h => by have := hff j (by omega) i hi h; omega⟩)
        (fun j hj => ⟨hg j (by omega), fun h => hfg i hi j (by omega) h.symm⟩)
      have hkeepg := getD_swapLoop_of_ne d f g i buf (g i)
        (fun j hj => ⟨hf j (by omega), hfg j (by omega) i hi⟩)
        (fun j hj => ⟨hg j (by omega), fun h => by have := hgg j (by omega) i hi h; omega⟩)
      have hne : g i ≠ f i := fun h => hfg i hi i hi h.symm
      rw [if_neg hne, if_pos rfl, if_pos rfl]
      exact ⟨hkeepg, hkeepf⟩

end Buffer
