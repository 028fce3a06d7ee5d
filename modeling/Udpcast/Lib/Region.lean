import Mathlib.Data.List.GetD
import Mathlib.Data.List.Flatten
import Mathlib.Tactic.Ring

/-!
# Regions of a buffer

A buffer is split into disjoint regions from the front: the rest is split at the end of a region,
and what comes off is split at its start.  In a buffer that consists of blocks of one size the
regions are blocks, and a region that is written in place is a block that is replaced.
-/

namespace Region

variable {α : Type*}

/-- The regions `(offset, stop)` of a buffer, of which `rest` is what follows position `pos`; none
when one starts before the last has ended, or ends after the buffer. -/
def split (pos : ℕ) (rest : List α) : List (ℕ × ℕ) → Option (List (List α))
  | [] => some []
  | (offset, stop) :: offsets =>
    if pos ≤ offset ∧ offset ≤ stop ∧ stop - pos ≤ rest.length then
      (split stop (rest.drop (stop - pos)) offsets).map
        ((rest.take (stop - pos)).drop (offset - pos) :: ·)
    else none

/-- The buffer after a region has been written in place. -/
def put (buf : List α) (p : ℕ × List α) : List α :=
  buf.take p.1 ++ p.2 ++ buf.drop (p.1 + p.2.length)

/-! ### Buffers of blocks -/

variable {size : ℕ} {blocks : List (List α)}

theorem length_flatten (hsize : ∀ b ∈ blocks, b.length = size) :
    blocks.flatten.length = blocks.length * size := by
  induction blocks with
  | nil => simp
  | cons b blocks ih =>
    have hb := hsize b List.mem_cons_self
    have hrest := ih fun c hc => hsize c (List.mem_cons_of_mem _ hc)
    rw [List.flatten_cons, List.length_append, hrest, hb, List.length_cons]
    ring

theorem drop_flatten (hsize : ∀ b ∈ blocks, b.length = size) (n : ℕ) :
    blocks.flatten.drop (n * size) = (blocks.drop n).flatten := by
  induction n generalizing blocks with
  | zero => rw [Nat.zero_mul, List.drop_zero, List.drop_zero]
  | succ n ih =>
    cases blocks with
    | nil => rw [List.flatten_nil, List.drop_nil, List.drop_nil, List.flatten_nil]
    | cons b blocks =>
      have hb := hsize b List.mem_cons_self
      have hstep : (n + 1) * size = b.length + n * size := by
        rw [hb]
        ring
      rw [List.flatten_cons, hstep, List.drop_length_add_append, List.drop_succ_cons]
      exact ih fun c hc => hsize c (List.mem_cons_of_mem _ hc)

theorem take_flatten (hsize : ∀ b ∈ blocks, b.length = size) (n : ℕ) :
    blocks.flatten.take (n * size) = (blocks.take n).flatten := by
  induction n generalizing blocks with
  | zero => rw [Nat.zero_mul, List.take_zero, List.take_zero, List.flatten_nil]
  | succ n ih =>
    cases blocks with
    | nil => rw [List.flatten_nil, List.take_nil, List.take_nil, List.flatten_nil]
    | cons b blocks =>
      have hb := hsize b List.mem_cons_self
      have hstep : (n + 1) * size = b.length + n * size := by
        rw [hb]
        ring
      rw [List.flatten_cons, hstep, List.take_length_add_append, List.take_succ_cons,
        List.flatten_cons]
      rw [ih fun c hc => hsize c (List.mem_cons_of_mem _ hc)]

theorem take_drop_flatten (hsize : ∀ b ∈ blocks, b.length = size) {i : ℕ}
    (hi : i < blocks.length) : (blocks.flatten.drop (i * size)).take size = blocks.getD i [] := by
  have hb : blocks[i].length = size := hsize _ (List.getElem_mem hi)
  rw [drop_flatten hsize, List.drop_eq_getElem_cons hi, List.flatten_cons, ← hb, List.take_left,
    List.getD_eq_getElem _ _ hi]

theorem put_flatten (hsize : ∀ b ∈ blocks, b.length = size) {i : ℕ} (hi : i < blocks.length)
    {b : List α} (hb : b.length = size) :
    put blocks.flatten (i * size, b) = (blocks.set i b).flatten := by
  have hstep : i * size + size = (i + 1) * size := by ring
  unfold put
  dsimp only
  rw [hb, hstep, take_flatten hsize, drop_flatten hsize, List.set_eq_take_append_cons_drop,
    if_pos hi, List.flatten_append, List.flatten_cons, List.append_assoc]

/-- Blocks that are written in place. -/
theorem foldl_put_flatten (hsize : ∀ b ∈ blocks, b.length = size) (ps : List (ℕ × List α))
    (hlt : ∀ p ∈ ps, p.1 < blocks.length) (hps : ∀ p ∈ ps, p.2.length = size) :
    (ps.map fun p => (p.1 * size, p.2)).foldl put blocks.flatten
      = (ps.foldl (fun l p => l.set p.1 p.2) blocks).flatten := by
  induction ps generalizing blocks with
  | nil => rfl
  | cons p ps ih =>
    have hp := hps p List.mem_cons_self
    rw [List.map_cons, List.foldl_cons, List.foldl_cons,
      put_flatten hsize (hlt p List.mem_cons_self) hp]
    refine ih ?_ ?_ fun q hq => hps q (List.mem_cons_of_mem _ hq)
    · intro b hb
      obtain hb | rfl := List.mem_or_eq_of_mem_set hb
      · exact hsize b hb
      · exact hp
    · intro q hq
      rw [List.length_set]
      exact hlt q (List.mem_cons_of_mem _ hq)

theorem split_flatten (hsize : ∀ b ∈ blocks, b.length = size) {nos : List ℕ} {k : ℕ}
    (hsorted : nos.Pairwise (· < ·)) (hk : ∀ no ∈ nos, k ≤ no) (hlt : ∀ no ∈ nos, no < blocks.length) :
    split (k * size) (blocks.flatten.drop (k * size))
      (nos.map fun no => (no * size, no * size + size)) = some (nos.map (blocks.getD · [])) := by
  induction nos generalizing k with
  | nil => rfl
  | cons no nos ih =>
    obtain ⟨hnext, hsorted'⟩ := List.pairwise_cons.mp hsorted
    have hkno := hk no List.mem_cons_self
    have hno := hlt no List.mem_cons_self
    obtain ⟨d, rfl⟩ := Nat.exists_eq_add_of_le hkno
    have hoff : (k + d) * size - k * size = d * size := by
      rw [Nat.add_mul, Nat.add_sub_cancel_left]
    have hstop : (k + d) * size + size - k * size = d * size + size := by
      rw [Nat.add_mul, Nat.add_assoc, Nat.add_sub_cancel_left]
    have hnextPos : (k + d) * size + size = (k + d + 1) * size := by ring
    have hfits : d * size + size ≤ (blocks.flatten.drop (k * size)).length := by
      have hle : (k + d + 1) * size ≤ blocks.length * size := Nat.mul_le_mul_right _ hno
      have hsum : (k + d + 1) * size = k * size + (d * size + size) := by ring
      rw [List.length_drop, length_flatten hsize]
      omega
    have hrest := ih hsorted' (k := k + d + 1) (fun m hm => hnext m hm)
      fun m hm => hlt m (List.mem_cons_of_mem _ hm)
    have hblock : ((blocks.flatten.drop (k * size)).take (d * size + size)).drop (d * size)
        = blocks.getD (k + d) [] := by
      rw [List.drop_take, List.drop_drop, Nat.add_sub_cancel_left, ← Nat.add_mul]
      exact take_drop_flatten hsize hno
    have hdrop : (blocks.flatten.drop (k * size)).drop (d * size + size)
        = blocks.flatten.drop ((k + d + 1) * size) := by
      rw [List.drop_drop, ← hnextPos, Nat.add_mul, Nat.add_assoc]
    rw [List.map_cons, split, hoff, hstop, if_pos ⟨Nat.mul_le_mul_right _ hkno,
      Nat.le_add_right _ _, hfits⟩, hblock, hdrop, hnextPos, hrest]
    rfl

end Region
