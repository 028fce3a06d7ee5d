import Mathlib.Data.List.Dedup
import Mathlib.Data.Finset.Dedup

/-!
# Folds

What every turn of a partial fold keeps holds of its result; and a fold of an operation that
commutes with itself and is idempotent depends on the members of the list only.
-/

namespace Fold

variable {α β : Type*} {f : β → α → β} {l l' : List α}

theorem foldlM_invariant {g : β → α → Option β} {P : β → Prop} {b b' : β}
    (hstep : ∀ a ∈ l, ∀ b b', P b → g b a = some b' → P b') (hb : P b)
    (h : l.foldlM g b = some b') : P b' := by
  induction l generalizing b with
  | nil =>
    obtain rfl := Option.some.inj h
    exact hb
  | cons a l ih =>
    rw [List.foldlM_cons] at h
    obtain ⟨b₁, hb₁, h⟩ := Option.bind_eq_some_iff.mp h
    exact ih (fun x hx => hstep x (List.mem_cons_of_mem _ hx))
      (hstep a List.mem_cons_self b b₁ hb hb₁) h

theorem foldlM_exists {g : β → α → Option β} {P : β → Prop} {b : β}
    (hstep : ∀ a ∈ l, ∀ b, P b → ∃ b', g b a = some b' ∧ P b') (hb : P b) :
    ∃ b', l.foldlM g b = some b' ∧ P b' := by
  induction l generalizing b with
  | nil => exact ⟨b, rfl, hb⟩
  | cons a l ih =>
    obtain ⟨b₁, hb₁, hP⟩ := hstep a List.mem_cons_self b hb
    obtain ⟨b₂, hb₂, hP₂⟩ := ih (fun x hx => hstep x (List.mem_cons_of_mem _ hx)) hP
    refine ⟨b₂, ?_, hP₂⟩
    rw [List.foldlM_cons, hb₁]
    exact hb₂

/-- A member of the list that is applied once more changes nothing. -/
theorem foldl_of_mem [DecidableEq α] {a : α} (ha : a ∈ l)
    (hcomm : ∀ x ∈ l, ∀ y ∈ l, ∀ b, f (f b x) y = f (f b y) x)
    (hidem : ∀ x ∈ l, ∀ b, f (f b x) x = f b x) (b : β) : l.foldl f (f b a) = l.foldl f b := by
  have hperm := List.perm_cons_erase ha
  rw [hperm.foldl_eq' hcomm, hperm.foldl_eq' hcomm, List.foldl_cons, List.foldl_cons, hidem a ha]

theorem foldl_dedup [DecidableEq α] (hcomm : ∀ x ∈ l, ∀ y ∈ l, ∀ b, f (f b x) y = f (f b y) x)
    (hidem : ∀ x ∈ l, ∀ b, f (f b x) x = f b x) (b : β) : l.dedup.foldl f b = l.foldl f b := by
  induction l generalizing b with
  | nil => rfl
  | cons a l ih =>
    have hcomm' : ∀ x ∈ l, ∀ y ∈ l, ∀ b, f (f b x) y = f (f b y) x := fun x hx y hy =>
      hcomm x (List.mem_cons_of_mem _ hx) y (List.mem_cons_of_mem _ hy)
    have hidem' : ∀ x ∈ l, ∀ b, f (f b x) x = f b x := fun x hx =>
      hidem x (List.mem_cons_of_mem _ hx)
    by_cases ha : a ∈ l
    · rw [List.dedup_cons_of_mem ha, ih hcomm' hidem', List.foldl_cons]
      exact (foldl_of_mem ha hcomm' hidem' b).symm
    · rw [List.dedup_cons_of_notMem ha, List.foldl_cons, List.foldl_cons]
      exact ih hcomm' hidem' (f b a)

/-- Order and multiplicity do not matter. -/
theorem foldl_congr_mem (hmem : ∀ a, a ∈ l ↔ a ∈ l')
    (hcomm : ∀ x ∈ l, ∀ y ∈ l, ∀ b, f (f b x) y = f (f b y) x)
    (hidem : ∀ x ∈ l, ∀ b, f (f b x) x = f b x) (b : β) : l.foldl f b = l'.foldl f b := by
  classical
  have hperm : l.dedup.Perm l'.dedup := by
    refine List.perm_of_nodup_nodup_toFinset_eq (List.nodup_dedup l) (List.nodup_dedup l') ?_
    apply Finset.ext
    intro a
    rw [List.mem_toFinset, List.mem_toFinset, List.mem_dedup, List.mem_dedup]
    exact hmem a
  have hcomm' : ∀ x ∈ l', ∀ y ∈ l', ∀ b, f (f b x) y = f (f b y) x := fun x hx y hy =>
    hcomm x ((hmem x).mpr hx) y ((hmem y).mpr hy)
  have hidem' : ∀ x ∈ l', ∀ b, f (f b x) x = f b x := fun x hx => hidem x ((hmem x).mpr hx)
  calc l.foldl f b = l.dedup.foldl f b := (foldl_dedup hcomm hidem b).symm
    _ = l'.dedup.foldl f b := hperm.foldl_eq' (fun x hx y hy =>
      hcomm x (List.mem_dedup.mp hx) y (List.mem_dedup.mp hy)) b
    _ = l'.foldl f b := foldl_dedup hcomm' hidem' b

end Fold
