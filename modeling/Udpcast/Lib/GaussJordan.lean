import Mathlib.LinearAlgebra.Matrix.NonsingularInverse
import Mathlib.LinearAlgebra.Matrix.Swap
import Mathlib.LinearAlgebra.Matrix.ToLin

/-!
# In-place Gauss-Jordan inversion as variable exchange

A square matrix `B` is read as the linear system `B x = y`.  A tableau `S` of `B` for a set `P`
of exchanged indices solves the same system for the unknowns `x i` (`i ∈ P`) and the values
`y i` (`i ∉ P`).  Every step of the in-place algorithm is one of two moves on a tableau: a swap
of two rows that are not exchanged yet, or the exchange of one index at a nonzero pivot.  When
all indices are exchanged, the tableau is the inverse.
-/

namespace GaussJordan

open Matrix

section Mix

variable {K n : Type*} [DecidableEq n]

/-- Entries of `a` on `P`, entries of `b` elsewhere. -/
def mix (P : Finset n) (a b : n → K) : n → K := fun i => if i ∈ P then a i else b i

theorem mix_swap {P : Finset n} {a b : n} (ha : a ∉ P) (hb : b ∉ P) (x y : n → K) :
    mix P x (y ∘ Equiv.swap a b) = mix P x y ∘ Equiv.swap a b := by
  funext i
  by_cases hia : i = a
  · subst hia; simp [mix, ha, hb]
  · by_cases hib : i = b
    · subst hib; simp [mix, ha, hb]
    · simp [mix, Equiv.swap_apply_of_ne_of_ne hia hib]

theorem mix_swap_left {P : Finset n} {a b : n} (ha : a ∉ P) (hb : b ∉ P) (x y : n → K) :
    mix P (y ∘ Equiv.swap a b) x = mix P y x := by
  funext i
  by_cases hi : i ∈ P
  · have hia : i ≠ a := fun h => ha (h ▸ hi)
    have hib : i ≠ b := fun h => hb (h ▸ hi)
    simp [mix, hi, Equiv.swap_apply_of_ne_of_ne hia hib]
  · simp [mix, hi]

theorem comp_swap_eq_iff (a b : n) (u v : n → K) :
    u ∘ Equiv.swap a b = v ↔ u = v ∘ Equiv.swap a b := by
  constructor
  · rintro rfl; funext i; simp
  · rintro rfl; funext i; simp

end Mix

variable {K n : Type*} [Field K] [Fintype n] [DecidableEq n]

/-- `S` solves `B x = y` for `x` on `P` and for `y` off `P`; what is not solved for stands with
a minus sign, because the algorithm reduces `B x - y`. -/
def Tableau (B S : Matrix n n K) (P : Finset n) : Prop :=
  ∀ x y : n → K, B *ᵥ x = y ↔ S *ᵥ mix P y (-x) = mix P x (-y)

/-- The in-place update at pivot `(c, c)`: the pivot row is divided by the pivot, every other row
has its multiple of the new pivot row subtracted, and column `c` receives the column of the
inverse instead of a unit column. -/
def exchange (S : Matrix n n K) (c : n) : Matrix n n K := fun i j =>
  let p := (S c c)⁻¹
  if i = c then (if j = c then p else p * S c j)
  else if j = c then -(S i c * p) else S i j - S i c * (p * S c j)

theorem tableau_empty (B : Matrix n n K) : Tableau B B ∅ := by
  intro x y
  have hx : mix ∅ y (-x) = -x := by funext i; simp [mix]
  have hy : mix ∅ x (-y) = -y := by funext i; simp [mix]
  rw [hx, hy, mulVec_neg, neg_inj]

/-- Swapping two rows that are not exchanged yet swaps the rows of the system. -/
theorem Tableau.swap {B S : Matrix n n K} {P : Finset n} (h : Tableau B S P) {a b : n}
    (ha : a ∉ P) (hb : b ∉ P) :
    Tableau (Matrix.swap K a b * B) (Matrix.swap K a b * S) P := by
  intro x y
  have hneg : -y ∘ Equiv.swap a b = (-y) ∘ Equiv.swap a b := rfl
  rw [← mulVec_mulVec, ← mulVec_mulVec, swap_mulVec, swap_mulVec, comp_swap_eq_iff,
    comp_swap_eq_iff, h, ← mix_swap ha hb, mix_swap_left ha hb, hneg]

/-- The row sum of a tableau with the term of column `c` split off. -/
theorem mulVec_split (S : Matrix n n K) (v : n → K) (c i : n) :
    (S *ᵥ v) i = S i c * v c + ∑ j ∈ Finset.univ.erase c, S i j * v j := by
  rw [mulVec, dotProduct, ← Finset.add_sum_erase _ _ (Finset.mem_univ c)]

theorem exchange_row_self (S : Matrix n n K) (v : n → K) (c : n) :
    (exchange S c *ᵥ v) c
      = (S c c)⁻¹ * (v c + ∑ j ∈ Finset.univ.erase c, S c j * v j) := by
  rw [mulVec_split _ _ c, mul_add, Finset.mul_sum]
  congr 1
  · simp [exchange]
  · refine Finset.sum_congr rfl fun j hj => ?_
    have hjc : j ≠ c := Finset.ne_of_mem_erase hj
    simp [exchange, hjc, mul_assoc]

theorem exchange_row_ne (S : Matrix n n K) (v : n → K) {c i : n} (hi : i ≠ c) :
    (exchange S c *ᵥ v) i
      = (∑ j ∈ Finset.univ.erase c, S i j * v j) - S i c * (exchange S c *ᵥ v) c := by
  have hsum : ∑ j ∈ Finset.univ.erase c, exchange S c i j * v j
      = (∑ j ∈ Finset.univ.erase c, S i j * v j)
        - S i c * ((S c c)⁻¹ * ∑ j ∈ Finset.univ.erase c, S c j * v j) := by
    rw [Finset.mul_sum, Finset.mul_sum, ← Finset.sum_sub_distrib]
    refine Finset.sum_congr rfl fun j hj => ?_
    have hjc : j ≠ c := Finset.ne_of_mem_erase hj
    simp only [exchange, hi, hjc, if_false]
    ring
  have hcol : exchange S c i c = -(S i c * (S c c)⁻¹) := by simp [exchange, hi]
  rw [exchange_row_self, mulVec_split _ _ c, hsum, hcol]
  ring

/-- Exchanging index `c` at a nonzero pivot adds `c` to the solved indices. -/
theorem Tableau.exchange {B S : Matrix n n K} {P : Finset n} (h : Tableau B S P) {c : n}
    (hc : c ∉ P) (hp : S c c ≠ 0) : Tableau B (exchange S c) (insert c P) := by
  intro x y
  rw [h x y]
  -- the two argument vectors differ at `c` only, where they carry `-x c` and `y c`
  have hsum : ∀ i, ∑ j ∈ Finset.univ.erase c, S i j * mix (insert c P) y (-x) j
      = ∑ j ∈ Finset.univ.erase c, S i j * mix P y (-x) j := by
    intro i
    refine Finset.sum_congr rfl fun j hj => ?_
    have hjc : j ≠ c := Finset.ne_of_mem_erase hj
    simp [mix, Finset.mem_insert, hjc]
  have hold : ∀ i, (S *ᵥ mix P y (-x)) i
      = (∑ j ∈ Finset.univ.erase c, S i j * mix P y (-x) j) - S i c * x c := by
    intro i
    rw [mulVec_split _ _ c]
    simp only [mix, hc, if_false, Pi.neg_apply]
    ring
  have hnewc : (GaussJordan.exchange S c *ᵥ mix (insert c P) y (-x)) c
      = (S c c)⁻¹ * (y c + ∑ j ∈ Finset.univ.erase c, S c j * mix P y (-x) j) := by
    rw [exchange_row_self, hsum]
    simp [mix]
  have hrowc : (S *ᵥ mix P y (-x)) c = mix P x (-y) c
      ↔ (GaussJordan.exchange S c *ᵥ mix (insert c P) y (-x)) c = mix (insert c P) x (-y) c := by
    rw [hold, hnewc]
    simp only [mix, hc, if_false, Pi.neg_apply, Finset.mem_insert_self, if_true]
    rw [inv_mul_eq_iff_eq_mul₀ hp]
    constructor
    · intro he; linear_combination he
    · intro he; linear_combination he
  have hrow : ∀ i, i ≠ c →
      (GaussJordan.exchange S c *ᵥ mix (insert c P) y (-x)) c = x c →
      ((S *ᵥ mix P y (-x)) i = mix P x (-y) i
        ↔ (GaussJordan.exchange S c *ᵥ mix (insert c P) y (-x)) i
          = mix (insert c P) x (-y) i) := by
    intro i hi hxc
    have hr : mix (insert c P) x (-y) i = mix P x (-y) i := by
      simp [mix, Finset.mem_insert, hi]
    rw [exchange_row_ne _ _ hi, hxc, hsum, hold, hr]
  have hmixc : mix (insert c P) x (-y) c = x c := by simp [mix]
  constructor
  · intro he
    have hxc := hrowc.mp (congrFun he c)
    funext i
    by_cases hi : i = c
    · rw [hi]; exact hxc
    · exact (hrow i hi (hxc.trans hmixc)).mp (congrFun he i)
  · intro he
    have hxc := congrFun he c
    funext i
    by_cases hi : i = c
    · rw [hi]; exact hrowc.mpr hxc
    · exact (hrow i hi (hxc.trans hmixc)).mpr (congrFun he i)

/-- A fully exchanged tableau is a left inverse. -/
theorem Tableau.mul_eq_one {B S : Matrix n n K} (h : Tableau B S Finset.univ) : S * B = 1 := by
  apply ext_of_mulVec_single
  intro j
  have hx := (h (Pi.single j 1) (B *ᵥ Pi.single j 1)).mp rfl
  have hl : mix Finset.univ (B *ᵥ Pi.single j 1) (-Pi.single j 1) = B *ᵥ Pi.single j (1 : K) := by
    funext i; simp [mix]
  have hr : mix Finset.univ (Pi.single j 1) (-(B *ᵥ Pi.single j 1)) = Pi.single j (1 : K) := by
    funext i; simp [mix]
  rw [hl, hr] at hx
  rw [← mulVec_mulVec, hx, one_mulVec]

/-- A row that is not exchanged and has no pivot candidate shows that the system is singular. -/
theorem Tableau.not_isUnit {B S : Matrix n n K} {P : Finset n} (h : Tableau B S P) {i : n}
    (hi : i ∉ P) (hz : ∀ j, j ∉ P → S i j = 0) : ¬ IsUnit B := by
  intro hB
  obtain ⟨x, hx⟩ := (mulVec_surjective_iff_isUnit.mpr hB) (Pi.single i 1)
  have hrow := congrFun ((h x (Pi.single i 1)).mp hx) i
  -- every product in row `i` vanishes: the value off `P`, the coefficient elsewhere
  have hzero : (S *ᵥ mix P (Pi.single i 1) (-x)) i = 0 := by
    rw [mulVec, dotProduct]
    refine Finset.sum_eq_zero fun j _ => ?_
    by_cases hj : j ∈ P
    · have hji : j ≠ i := fun e => hi (e ▸ hj)
      simp [mix, hj, hji]
    · rw [hz j hj, zero_mul]
  rw [hzero] at hrow
  simp [mix, hi] at hrow

end GaussJordan
