import Mathlib.LinearAlgebra.Lagrange
import Mathlib.LinearAlgebra.Matrix.NonsingularInverse
import Mathlib.LinearAlgebra.Matrix.ToLin

/-!
# Square Cauchy matrices are invertible

The matrix `(x i - y j)⁻¹` of two families of pairwise distinct points without a common value
is invertible: a vector in its kernel gives a polynomial of too low a degree with too many roots.
-/

namespace Cauchy

open Matrix Polynomial

variable {K n : Type*} [Field K] [Fintype n] [DecidableEq n]

/-- The Cauchy matrix of the row points `x` and the column points `y`. -/
def cauchy (x y : n → K) : Matrix n n K := fun i j => (x i - y j)⁻¹

/-- The numerator of `∑ j, v j / (X - y j)` over the common denominator. -/
noncomputable def numerator (y v : n → K) : K[X] :=
  ∑ j, C (v j) * ∏ l ∈ Finset.univ.erase j, (X - C (y l))

theorem numerator_degree_lt [Nonempty n] (y v : n → K) :
    (numerator y v).degree < (Finset.univ : Finset n).card := by
  refine lt_of_le_of_lt (Polynomial.degree_sum_le _ _) ?_
  refine (Finset.sup_lt_iff (by exact_mod_cast WithBot.bot_lt_coe _)).mpr fun j _ => ?_
  have hprod : (∏ l ∈ Finset.univ.erase j, (X - C (y l))).degree
      = ((Finset.univ.erase j).card : WithBot ℕ) := by
    rw [degree_prod]
    simp
  have hle : (C (v j) * ∏ l ∈ Finset.univ.erase j, (X - C (y l))).degree
      ≤ ((Finset.univ.erase j).card : WithBot ℕ) := by
    rw [← hprod, degree_mul]
    by_cases hv : v j = 0
    · simp [hv]
    · rw [degree_C hv, zero_add]
  refine lt_of_le_of_lt hle ?_
  have hcard := Finset.card_erase_lt_of_mem (Finset.mem_univ j)
  exact_mod_cast hcard

theorem eval_numerator {x y : n → K} (hxy : ∀ i j, x i ≠ y j) (v : n → K) (i : n) :
    (numerator y v).eval (x i) = (∏ l, (x i - y l)) * (cauchy x y *ᵥ v) i := by
  rw [numerator, eval_finsetSum, mulVec, dotProduct, Finset.mul_sum]
  refine Finset.sum_congr rfl fun j _ => ?_
  have hne : x i - y j ≠ 0 := sub_ne_zero.mpr (hxy i j)
  have hprod := Finset.mul_prod_erase Finset.univ (fun l => x i - y l) (Finset.mem_univ j)
  rw [eval_mul, eval_C, eval_prod, ← hprod, cauchy]
  simp only [eval_sub, eval_X, eval_C]
  field_simp

theorem eval_numerator_node (y v : n → K) (j : n) :
    (numerator y v).eval (y j) = v j * ∏ l ∈ Finset.univ.erase j, (y j - y l) := by
  rw [numerator, eval_finsetSum, Finset.sum_eq_single j]
  · simp [eval_prod]
  · intro k _ hk
    rw [eval_mul, eval_prod]
    have hmem : j ∈ Finset.univ.erase k := Finset.mem_erase.mpr ⟨hk.symm, Finset.mem_univ j⟩
    rw [Finset.prod_eq_zero hmem (by simp), mul_zero]
  · intro h
    exact absurd (Finset.mem_univ j) h

theorem cauchy_isUnit {x y : n → K} (hx : Function.Injective x) (hy : Function.Injective y)
    (hxy : ∀ i j, x i ≠ y j) : IsUnit (cauchy x y) := by
  rw [← mulVec_injective_iff_isUnit]
  refine (injective_iff_map_eq_zero (cauchy x y).mulVecLin).mpr fun v hv => ?_
  have hv' : cauchy x y *ᵥ v = 0 := hv
  rcases isEmpty_or_nonempty n with hn | hn
  · exact Subsingleton.elim _ _
  have hzero : numerator y v = 0 := by
    refine eq_zero_of_degree_lt_of_eval_index_eq_zero _ hx.injOn (numerator_degree_lt y v) ?_
    intro i _
    rw [eval_numerator hxy, hv', Pi.zero_apply, mul_zero]
  funext j
  have hnode := eval_numerator_node y v j
  rw [hzero, eval_zero] at hnode
  refine (mul_eq_zero.mp hnode.symm).resolve_right ?_
  refine Finset.prod_ne_zero_iff.mpr fun l hl => ?_
  exact sub_ne_zero.mpr fun h => (Finset.ne_of_mem_erase hl) (hy h).symm

end Cauchy
