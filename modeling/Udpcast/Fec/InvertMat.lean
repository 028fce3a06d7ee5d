import Udpcast.Lib.Buffer
import Udpcast.Lib.GaussJordan
import Udpcast.Fec.Tables

/-!
# `addmul`, `mul` and `invert_mat` (fec.rs:115-227)

`invert_mat` works in place on a row-major `k * k` buffer.  Its loop state is read here as a
`GaussJordan.Tableau` of the row-permuted input matrix: one turn of the main loop swaps two rows
and exchanges one index.  The final loop undoes the row permutation on the columns.
-/

namespace Udpcast.Fec

open Matrix

/-- `addmul` (fec.rs:115-122); `fecEncode` and `fecDecode` check the block lengths. -/
def addmul (dst src : List UInt8) (c : UInt8) (sz : ℕ) : List UInt8 :=
  if c = 0 then dst
  else Buffer.update 0 0 sz (fun i b => b ^^^ gfMul c (src.getD i 0)) dst

/-- `mul` (fec.rs:124-132). -/
def mul (dst src : List UInt8) (c : UInt8) (sz : ℕ) : List UInt8 :=
  if c = 0 then Buffer.update 0 0 sz (fun _ _ => 0) dst
  else Buffer.update 0 0 sz (fun i _ => gfMul c (src.getD i 0)) dst

/-- The loop state of `invert_mat`. -/
structure Elim where
  src : List UInt8
  indxc : List ℕ
  indxr : List ℕ
  ipiv : List ℕ
  idRow : List UInt8

/-- `src[row * k + ix]` -/
def cell (k : ℕ) (src : List UInt8) (row ix : ℕ) : UInt8 := src.getD (row * k + ix) 0

/-- The inner search loop of one row (fec.rs:150-160): the first free column with a nonzero
entry, or `none` when `return 1` is reached. -/
def searchRow (k : ℕ) (src : List UInt8) (ipiv : List ℕ) (row : ℕ) :
    List ℕ → Option (Option ℕ)
  | [] => some none
  | ix :: rest =>
    if ipiv.getD ix 0 = 0 then
      if cell k src row ix ≠ 0 then some (some ix) else searchRow k src ipiv row rest
    else if ipiv.getD ix 0 > 1 then none
    else searchRow k src ipiv row rest

/-- The pivot search (fec.rs:148-167); `none` stands for `return 1`. -/
def searchPivot (k : ℕ) (src : List UInt8) (ipiv : List ℕ) : List ℕ → Option (ℕ × ℕ)
  | [] => none
  | row :: rest =>
    if ipiv.getD row 0 ≠ 1 then
      match searchRow k src ipiv row (List.range k) with
      | none => none
      | some (some ix) => some (row, ix)
      | some none => searchPivot k src ipiv rest
    else searchPivot k src ipiv rest

/-- The pivot position of turn `col` (fec.rs:141-170). -/
def choosePivot (k : ℕ) (s : Elim) (col : ℕ) : Option (ℕ × ℕ) :=
  if s.ipiv.getD col 0 ≠ 1 ∧ cell k s.src col col ≠ 0 then some (col, col)
  else searchPivot k s.src s.ipiv (List.range k)

/-- `src[row * k .. row * k + k]` -/
def rowSlice (k : ℕ) (src : List UInt8) (row : ℕ) : List UInt8 := (src.drop (row * k)).take k

/-- The scaled pivot row (fec.rs:181-191); a pivot of 1 is left as it is. -/
def scaleRow (k : ℕ) (src : List UInt8) (icol : ℕ) : List UInt8 :=
  let pivot := cell k src icol icol
  if pivot ≠ 1
    then Buffer.update 0 (icol * k) k (fun _ b => gfMul (gfInv pivot) b)
      (src.set (icol * k + icol) 1)
    else src

/-- One row of the elimination (fec.rs:196-211). -/
def reduceRow (k icol : ℕ) (src : List UInt8) (ix : ℕ) : List UInt8 :=
  if ix ≠ icol then
    let c := cell k src ix icol
    let src := src.set (ix * k + icol) 0
    src.take (ix * k) ++ addmul (rowSlice k src ix) (rowSlice k src icol) c k
      ++ src.drop (ix * k + k)
  else src

/-- One turn of the main loop (fec.rs:140-215); `none` stands for `return 1`. -/
def elimCol (k : ℕ) (s : Elim) (col : ℕ) : Option Elim := do
  let (irow, icol) ← choosePivot k s col
  let ipiv := s.ipiv.set icol (s.ipiv.getD icol 0 + 1)
  let src := if irow ≠ icol
    then Buffer.swapLoop 0 (fun ix => irow * k + ix) (fun ix => icol * k + ix) k s.src
    else s.src
  let indxr := s.indxr.set col irow
  let indxc := s.indxc.set col icol
  if cell k src icol icol = 0 then none
  else
    let src := scaleRow k src icol
    let idRow := s.idRow.set icol 1
    let src := if rowSlice k src icol ≠ idRow
      then (List.range k).foldl (reduceRow k icol) src
      else src
    some ⟨src, indxc, indxr, ipiv, idRow.set icol 0⟩

/-- One turn of the final loop (fec.rs:217-225). -/
def unscramble (k : ℕ) (indxr indxc : List ℕ) (src : List UInt8) (col : ℕ) : List UInt8 :=
  let r := indxr.getD col 0
  let c := indxc.getD col 0
  if r ≠ c then Buffer.swapLoop 0 (fun row => row * k + r) (fun row => row * k + c) k src
  else src

/-- `invert_mat` (fec.rs:134-227): `some` carries the buffer of a return value 0, `none` is the
return value 1, after which the buffer is not read any more. -/
def invertMat (src : List UInt8) (k : ℕ) : Option (List UInt8) := do
  let zeros := List.replicate k 0
  let s ← (List.range k).foldlM (elimCol k) ⟨src, zeros, zeros, zeros, List.replicate k 0⟩
  some ((List.range k).reverse.foldl (unscramble k s.indxr s.indxc) s.src)

/-! ### The byte loops -/

@[simp] theorem length_addmul (dst src : List UInt8) (c : UInt8) (sz : ℕ) :
    (addmul dst src c sz).length = dst.length := by
  unfold addmul
  split <;> simp

@[simp] theorem length_mul (dst src : List UInt8) (c : UInt8) (sz : ℕ) :
    (mul dst src c sz).length = dst.length := by
  unfold mul
  split <;> simp

theorem getD_addmul (dst src : List UInt8) (c : UInt8) (sz i : ℕ) (hi : i < dst.length) :
    (addmul dst src c sz).getD i 0
      = if i < sz then dst.getD i 0 ^^^ gfMul c (src.getD i 0) else dst.getD i 0 := by
  unfold addmul
  by_cases hc : c = 0
  · simp [hc, gfMul_zero_left]
  · rw [if_neg hc, Buffer.getD_update]
    simp only [Nat.zero_le, true_and, Nat.zero_add, hi, and_true, Nat.sub_zero]

theorem getD_mul (dst src : List UInt8) (c : UInt8) (sz i : ℕ) (hi : i < dst.length) :
    (mul dst src c sz).getD i 0
      = if i < sz then gfMul c (src.getD i 0) else dst.getD i 0 := by
  unfold mul
  by_cases hc : c = 0
  · rw [if_pos hc, Buffer.getD_update]
    simp only [Nat.zero_le, true_and, Nat.zero_add, hi, and_true, hc, gfMul_zero_left]
  · rw [if_neg hc, Buffer.getD_update]
    simp only [Nat.zero_le, true_and, Nat.zero_add, hi, and_true, Nat.sub_zero]

/-! ### The buffer as a matrix -/

/-- The matrix a row-major buffer holds. -/
def mat (k : ℕ) (src : List UInt8) : Matrix (Fin k) (Fin k) Gf256 := fun i j => ⟨cell k src i j⟩

theorem cell_lt {k i j : ℕ} (hi : i < k) (hj : j < k) : i * k + j < k * k := by
  calc i * k + j < i * k + k := by omega
    _ = (i + 1) * k := by ring
    _ ≤ k * k := Nat.mul_le_mul_right k hi

theorem cell_inj {k i j i' j' : ℕ} (hj : j < k) (hj' : j' < k) :
    i * k + j = i' * k + j' ↔ i = i' ∧ j = j' := by
  constructor
  · intro h
    have hk : 0 < k := by omega
    have hdiv : (i * k + j) / k = (i' * k + j') / k := by rw [h]
    have hmod : (i * k + j) % k = (i' * k + j') % k := by rw [h]
    rw [Nat.add_comm, Nat.add_mul_div_right _ _ hk, Nat.div_eq_of_lt hj, Nat.add_comm (i' * k),
      Nat.add_mul_div_right _ _ hk, Nat.div_eq_of_lt hj'] at hdiv
    rw [Nat.add_comm, Nat.add_mul_mod_self_right, Nat.mod_eq_of_lt hj, Nat.add_comm (i' * k),
      Nat.add_mul_mod_self_right, Nat.mod_eq_of_lt hj'] at hmod
    exact ⟨by omega, hmod⟩
  · rintro ⟨rfl, rfl⟩
    rfl

theorem mem_row_iff {k a b ix : ℕ} (hb : b < k) :
    (ix * k ≤ a * k + b ∧ a * k + b < ix * k + k) ↔ a = ix := by
  constructor
  · rintro ⟨h1, h2⟩
    by_contra hne
    rcases Nat.lt_or_gt_of_ne hne with h | h
    · have : (a + 1) * k ≤ ix * k := Nat.mul_le_mul_right k h
      rw [Nat.add_mul] at this
      omega
    · have : (ix + 1) * k ≤ a * k := Nat.mul_le_mul_right k h
      rw [Nat.add_mul] at this
      omega
  · rintro rfl
    omega

theorem row_le {k ix : ℕ} (hix : ix < k) : ix * k + k ≤ k * k := by
  calc ix * k + k = (ix + 1) * k := by ring
    _ ≤ k * k := Nat.mul_le_mul_right k hix

theorem cell_set {k : ℕ} {src : List UInt8} (hs : src.length = k * k) {i j a b : ℕ}
    (hi : i < k) (hj : j < k) (hb : b < k) (v : UInt8) :
    cell k (src.set (i * k + j) v) a b = if i = a ∧ j = b then v else cell k src a b := by
  rw [cell, Buffer.getD_set, hs]
  simp only [cell_inj hj hb, cell_lt hi hj, and_true]
  rfl

theorem length_rowSlice {k : ℕ} {src : List UInt8} (hs : src.length = k * k) {row : ℕ}
    (hrow : row < k) : (rowSlice k src row).length = k := by
  have h := row_le hrow
  rw [rowSlice, List.length_take, List.length_drop, hs]
  omega

theorem getD_rowSlice {k : ℕ} (src : List UInt8) (row : ℕ) {j : ℕ} (hj : j < k) :
    (rowSlice k src row).getD j 0 = cell k src row j := by
  rw [rowSlice, cell, List.getD_eq_getElem?_getD, List.getElem?_take, if_pos hj,
    List.getElem?_drop, List.getD_eq_getElem?_getD]

/-! ### One turn of the main loop -/

theorem searchRow_some {k : ℕ} {src : List UInt8} {ipiv : List ℕ} {row : ℕ} {l : List ℕ} {ix : ℕ}
    (h : searchRow k src ipiv row l = some (some ix)) :
    ix ∈ l ∧ ipiv.getD ix 0 = 0 ∧ cell k src row ix ≠ 0 := by
  induction l with
  | nil => simp [searchRow] at h
  | cons a rest ih =>
    unfold searchRow at h
    split at h
    · split at h
      · have ha : a = ix := by simpa using h
        subst ha
        exact ⟨List.mem_cons_self .., by assumption, by assumption⟩
      · obtain ⟨hmem, hrest⟩ := ih h
        exact ⟨List.mem_cons_of_mem _ hmem, hrest⟩
    · split at h
      · simp at h
      · obtain ⟨hmem, hrest⟩ := ih h
        exact ⟨List.mem_cons_of_mem _ hmem, hrest⟩

theorem searchRow_none {k : ℕ} {src : List UInt8} {ipiv : List ℕ} {row : ℕ} {l : List ℕ}
    (hle : ∀ ix, ipiv.getD ix 0 ≤ 1) :
    searchRow k src ipiv row l ≠ none ∧ (searchRow k src ipiv row l = some none →
      ∀ ix ∈ l, ipiv.getD ix 0 = 0 → cell k src row ix = 0) := by
  induction l with
  | nil => simp [searchRow]
  | cons a rest ih =>
    have ha := hle a
    unfold searchRow
    split
    · split
      · simp
      · rename_i hz
        refine ⟨ih.1, fun h ix hix h0 => ?_⟩
        rcases List.mem_cons.mp hix with rfl | hmem
        · exact not_not.mp hz
        · exact ih.2 h ix hmem h0
    · rename_i h0
      rw [if_neg (by omega)]
      refine ⟨ih.1, fun h ix hix hx => ?_⟩
      rcases List.mem_cons.mp hix with rfl | hmem
      · exact absurd hx h0
      · exact ih.2 h ix hmem hx

theorem searchPivot_some {k : ℕ} {src : List UInt8} {ipiv : List ℕ} {l : List ℕ} {row ix : ℕ}
    (h : searchPivot k src ipiv l = some (row, ix)) :
    row ∈ l ∧ ix < k ∧ ipiv.getD row 0 ≠ 1 ∧ ipiv.getD ix 0 = 0 ∧ cell k src row ix ≠ 0 := by
  induction l with
  | nil => simp [searchPivot] at h
  | cons a rest ih =>
    have hrest : searchPivot k src ipiv rest = some (row, ix) →
        row ∈ a :: rest ∧ ix < k ∧ ipiv.getD row 0 ≠ 1 ∧ ipiv.getD ix 0 = 0
          ∧ cell k src row ix ≠ 0 := fun h => by
      obtain ⟨hmem, hr⟩ := ih h
      exact ⟨List.mem_cons_of_mem _ hmem, hr⟩
    unfold searchPivot at h
    split at h
    · split at h
      · simp at h
      · rename_i hfound
        obtain ⟨rfl, rfl⟩ : a = row ∧ _ = ix := by simpa using h
        obtain ⟨hix, h0, hne⟩ := searchRow_some hfound
        exact ⟨List.mem_cons_self .., List.mem_range.mp hix, by assumption, h0, hne⟩
      · exact hrest h
    · exact hrest h

theorem searchPivot_none {k : ℕ} {src : List UInt8} {ipiv : List ℕ} {l : List ℕ}
    (hle : ∀ ix, ipiv.getD ix 0 ≤ 1) (h : searchPivot k src ipiv l = none) :
    ∀ row ∈ l, ipiv.getD row 0 ≠ 1 → ∀ ix < k, ipiv.getD ix 0 = 0 → cell k src row ix = 0 := by
  induction l with
  | nil => simp
  | cons a rest ih =>
    have hrow := @searchRow_none k src ipiv a (List.range k) hle
    intro row hmem hne ix hix h0
    unfold searchPivot at h
    rcases List.mem_cons.mp hmem with rfl | hmem
    · rw [if_pos hne] at h
      split at h
      · rename_i hnone
        exact absurd hnone hrow.1
      · simp at h
      · rename_i hnot
        exact hrow.2 hnot ix (List.mem_range.mpr hix) h0
    · split at h
      · split at h
        · rename_i hnone
          exact absurd hnone hrow.1
        · simp at h
        · exact ih h row hmem hne ix hix h0
      · exact ih h row hmem hne ix hix h0

theorem cell_swapRows {k : ℕ} {src : List UInt8} (hs : src.length = k * k) {r c : ℕ} (hr : r < k)
    (hc : c < k) (hrc : r ≠ c) (a : ℕ) {b : ℕ} (hb : b < k) :
    cell k (Buffer.swapLoop 0 (fun ix => r * k + ix) (fun ix => c * k + ix) k src) a b
      = if a = r then cell k src c b else if a = c then cell k src r b else cell k src a b := by
  have hloop := Buffer.getD_swapLoop (0 : UInt8) (fun ix => r * k + ix) (fun ix => c * k + ix) k src
    (fun i hi => by rw [hs]; exact cell_lt hr hi) (fun i hi => by rw [hs]; exact cell_lt hc hi)
    (fun i hi j hj h => ((cell_inj hi hj).mp h).2) (fun i hi j hj h => ((cell_inj hi hj).mp h).2)
    (fun i hi j hj h => hrc ((cell_inj hi hj).mp h).1) b hb
  by_cases har : a = r
  · subst har
    rw [if_pos rfl]
    exact hloop.1
  · by_cases hac : a = c
    · subst hac
      rw [if_neg har, if_pos rfl]
      exact hloop.2
    · rw [if_neg har, if_neg hac]
      exact Buffer.getD_swapLoop_of_ne 0 _ _ k src _
        (fun i hi => ⟨by rw [hs]; exact cell_lt hr hi,
          fun h => har ((cell_inj hi hb).mp h).1.symm⟩)
        (fun i hi => ⟨by rw [hs]; exact cell_lt hc hi,
          fun h => hac ((cell_inj hi hb).mp h).1.symm⟩)

theorem mat_swapRows {k : ℕ} {src : List UInt8} (hs : src.length = k * k) (r c : Fin k)
    (hrc : r ≠ c) :
    mat k (Buffer.swapLoop 0 (fun ix => r * k + ix) (fun ix => c * k + ix) k src)
      = Matrix.swap Gf256 r c * mat k src := by
  refine Matrix.ext fun i j => ?_
  have hne : (r : ℕ) ≠ c := fun h => hrc (Fin.ext h)
  have hcell := cell_swapRows hs r.isLt c.isLt hne i j.isLt
  by_cases hir : i = r
  · subst hir
    rw [if_pos rfl] at hcell
    rw [Matrix.swap_mul_apply_left]
    exact Gf256.ext hcell
  · have h1 : (i : ℕ) ≠ r := fun h => hir (Fin.ext h)
    rw [if_neg h1] at hcell
    by_cases hic : i = c
    · subst hic
      rw [if_pos rfl] at hcell
      rw [Matrix.swap_mul_apply_right]
      exact Gf256.ext hcell
    · have h2 : (i : ℕ) ≠ c := fun h => hic (Fin.ext h)
      rw [if_neg h2] at hcell
      rw [Matrix.swap_mul_of_ne hir hic]
      exact Gf256.ext hcell

theorem length_scaleRow (k : ℕ) (src : List UInt8) (icol : ℕ) :
    (scaleRow k src icol).length = src.length := by
  unfold scaleRow
  simp only
  split <;> simp

theorem gfInv_one : gfInv 1 = 1 := by
  rw [gfInv_eq]
  rfl

theorem cell_scaleRow {k : ℕ} {src : List UInt8} (hs : src.length = k * k) {icol : ℕ}
    (hc : icol < k) {a b : ℕ} (ha : a < k) (hb : b < k) :
    cell k (scaleRow k src icol) a b
      = if a = icol then
          gfMul (gfInv (cell k src icol icol)) (if b = icol then 1 else cell k src icol b)
        else cell k src a b := by
  by_cases hp : cell k src icol icol = 1
  · rw [scaleRow]
    simp only [hp, ne_eq, not_true_eq_false, if_false, gfInv_one, gfMul_one_left]
    by_cases haic : a = icol
    · subst haic
      by_cases hbic : b = a
      · subst hbic; simp [hp]
      · simp [hbic]
    · simp [haic]
  · rw [scaleRow]
    simp only [hp, ne_eq, not_false_eq_true, if_true]
    rw [cell, Buffer.getD_update, List.length_set, hs]
    have hset := cell_set hs hc hc hb (1 : UInt8) (a := a) (b := b)
    rw [cell] at hset
    have hlt := cell_lt ha hb
    have hrange : (icol * k ≤ a * k + b ∧ a * k + b < icol * k + k ∧ a * k + b < k * k)
        ↔ a = icol := by
      rw [← mem_row_iff hb]
      simp only [hlt, and_true]
    by_cases haic : a = icol
    · rw [if_pos (hrange.mpr haic), if_pos haic, hset, haic]
      simp only [true_and, eq_comm]
    · rw [if_neg (fun h => haic (hrange.mp h)), if_neg haic, hset,
        if_neg (fun h => haic h.1.symm)]

theorem length_reduceRow {k icol : ℕ} {src : List UInt8} (hs : src.length = k * k) {ix : ℕ}
    (hix : ix < k) : (reduceRow k icol src ix).length = k * k := by
  have h := row_le hix
  unfold reduceRow
  split
  · have hset : (src.set (ix * k + icol) 0).length = k * k := by rw [List.length_set, hs]
    simp only [List.length_append, List.length_take, List.length_drop, length_addmul,
      length_rowSlice hset hix, hset]
    omega
  · exact hs

/-- One row of the elimination subtracts a multiple of the pivot row, with a zero put in the
pivot column first. -/
theorem cell_reduceRow {k : ℕ} {src : List UInt8} (hs : src.length = k * k) {icol ix : ℕ}
    (hc : icol < k) (hix : ix < k) (hne : ix ≠ icol) (a : ℕ) {b : ℕ} (hb : b < k) :
    cell k (reduceRow k icol src ix) a b
      = if a = ix then (if b = icol then 0 else cell k src ix b)
          ^^^ gfMul (cell k src ix icol) (cell k src icol b)
        else cell k src a b := by
  have hset : (src.set (ix * k + icol) 0).length = k * k := by rw [List.length_set, hs]
  have hdst := length_rowSlice hset hix
  have hlen : (addmul (rowSlice k (src.set (ix * k + icol) 0) ix)
      (rowSlice k (src.set (ix * k + icol) 0) icol) (cell k src ix icol) k).length = k := by
    rw [length_addmul, hdst]
  have hsplice := Buffer.getD_splice (0 : UInt8) (src.set (ix * k + icol) 0)
    (addmul (rowSlice k (src.set (ix * k + icol) 0) ix)
      (rowSlice k (src.set (ix * k + icol) 0) icol) (cell k src ix icol) k)
    (s := ix * k) (by rw [hlen, hset]; exact row_le hix) (a * k + b)
  rw [hlen] at hsplice
  have hcell := cell_set hs hix hc hb (0 : UInt8) (a := a) (b := b)
  rw [cell] at hcell
  simp only [reduceRow, if_pos hne]
  rw [cell, hsplice]
  by_cases ha : a = ix
  · subst ha
    have hself := cell_set hs hix hc hb (0 : UInt8) (a := a) (b := b)
    have hpiv := cell_set hs hix hc hb (0 : UInt8) (a := icol) (b := b)
    rw [if_neg (fun h => hne h.1)] at hpiv
    rw [if_pos ((mem_row_iff hb).mpr rfl), if_pos rfl, Nat.add_sub_cancel_left,
      getD_addmul _ _ _ _ _ (by rw [hdst]; exact hb), if_pos hb, getD_rowSlice _ _ hb,
      getD_rowSlice _ _ hb, hself, hpiv]
    simp only [true_and, eq_comm]
  · rw [if_neg (fun h => ha ((mem_row_iff hb).mp h)), if_neg ha, hcell,
      if_neg (fun h => ha h.1.symm)]

theorem length_eliminate {k icol : ℕ} {src : List UInt8} (hs : src.length = k * k) (n : ℕ)
    (hn : n ≤ k) : ((List.range n).foldl (reduceRow k icol) src).length = k * k := by
  induction n with
  | zero => exact hs
  | succ n ih =>
    rw [List.range_succ, List.foldl_append, List.foldl_cons, List.foldl_nil]
    exact length_reduceRow (ih (by omega)) (by omega)

/-- After `n` rows the elimination has rewritten the rows below `n`, the pivot row apart. -/
theorem cell_eliminate {k : ℕ} {src : List UInt8} (hs : src.length = k * k) {icol : ℕ}
    (hc : icol < k) (n : ℕ) (hn : n ≤ k) (a : ℕ) {b : ℕ} (hb : b < k) :
    cell k ((List.range n).foldl (reduceRow k icol) src) a b
      = if a < n ∧ a ≠ icol then (if b = icol then 0 else cell k src a b)
          ^^^ gfMul (cell k src a icol) (cell k src icol b)
        else cell k src a b := by
  induction n generalizing a b with
  | zero => simp
  | succ n ih =>
    rw [List.range_succ, List.foldl_append, List.foldl_cons, List.foldl_nil]
    have hlen := @length_eliminate k icol src hs n (by omega)
    have hpiv : ∀ {b}, b < k → cell k ((List.range n).foldl (reduceRow k icol) src) icol b
        = cell k src icol b := fun hb => by
      rw [ih (by omega) icol hb, if_neg (fun h => h.2 rfl)]
    have hrow : ∀ {b}, b < k → cell k ((List.range n).foldl (reduceRow k icol) src) n b
        = cell k src n b := fun hb => by
      rw [ih (by omega) n hb, if_neg (by omega)]
    by_cases hnc : n = icol
    · have hskip : reduceRow k icol ((List.range n).foldl (reduceRow k icol) src) n
          = (List.range n).foldl (reduceRow k icol) src := by
        rw [reduceRow, if_neg (by simp [hnc])]
      have hiff : (a < n ∧ a ≠ icol) ↔ (a < n + 1 ∧ a ≠ icol) := by omega
      rw [hskip, ih (by omega) a hb]
      simp only [hiff]
    · rw [cell_reduceRow hlen hc (by omega) hnc a hb]
      by_cases ha : a = n
      · have hcond : n < n + 1 ∧ n ≠ icol := ⟨by omega, hnc⟩
        rw [if_pos ha, ha, if_pos hcond, hrow hb, hrow hc, hpiv hb]
      · have hiff : (a < n ∧ a ≠ icol) ↔ (a < n + 1 ∧ a ≠ icol) := by omega
        rw [if_neg ha, ih (by omega) a hb]
        simp only [hiff]

/-- Scaling and elimination together exchange the pivot index; the elimination that the identity
row makes superfluous may be skipped. -/
theorem mat_exchange {k : ℕ} {src : List UInt8} (hs : src.length = k * k) (c : Fin k) :
    mat k ((List.range k).foldl (reduceRow k c) (scaleRow k src c))
      = GaussJordan.exchange (mat k src) c := by
  have hsc : (scaleRow k src c).length = k * k := by rw [length_scaleRow, hs]
  refine Matrix.ext fun i j => Gf256.ext ?_
  have hcell := cell_eliminate hsc c.isLt k le_rfl i j.isLt
  have hi := cell_scaleRow hs c.isLt i.isLt j.isLt
  have hic' := cell_scaleRow hs c.isLt i.isLt c.isLt
  have hcj := cell_scaleRow hs c.isLt c.isLt j.isLt
  have hij : ((i : ℕ) = c) ↔ i = c := Fin.ext_iff.symm
  have hjc : ((j : ℕ) = c) ↔ j = c := Fin.ext_iff.symm
  simp only [mat, GaussJordan.exchange]
  rw [hcell]
  simp only [i.isLt, true_and, ne_eq, hij, hjc] at hi hic' hcj ⊢
  by_cases h1 : i = c
  · subst h1
    by_cases h2 : j = i
    · subst h2
      simp only [not_true_eq_false, if_false, if_true] at hi ⊢
      rw [hi, gfMul_comm, gfMul_one_left]
      rfl
    · simp only [not_true_eq_false, if_false, if_true, h2] at hi ⊢
      rw [hi]
      rfl
  · by_cases h2 : j = c
    · subst h2
      simp only [h1, not_false_eq_true, if_false, if_true] at hi hic' hcj ⊢
      rw [hic', hcj, UInt8.zero_xor, gfMul_comm (gfInv _) 1, gfMul_one_left]
      rfl
    · simp only [h1, h2, not_false_eq_true, if_false, if_true] at hi hic' hcj ⊢
      rw [hi, hic', hcj]
      rfl

theorem mat_eliminate_unit {k : ℕ} {src : List UInt8} (hs : src.length = k * k) (c : Fin k)
    (hrow : rowSlice k src c = (List.replicate k 0).set c 1) :
    mat k ((List.range k).foldl (reduceRow k c) src) = mat k src := by
  have hcj : ∀ j < k, cell k src c j = if j = c then 1 else 0 := by
    intro j hj
    rw [← getD_rowSlice src c hj, hrow, Buffer.getD_set]
    have hlen : (c : ℕ) < (List.replicate k (0 : UInt8)).length := by simp
    simp only [hlen, and_true, eq_comm (a := (c : ℕ))]
    have hz : (List.replicate k (0 : UInt8)).getD j 0 = 0 := by
      rw [List.getD_eq_getElem?_getD, List.getElem?_replicate]
      split <;> rfl
    rw [hz]
  refine Matrix.ext fun i j => Gf256.ext ?_
  simp only [mat]
  rw [cell_eliminate hs c.isLt k le_rfl i j.isLt]
  by_cases hic : (i : ℕ) = c
  · rw [if_neg (fun h => h.2 hic)]
  · rw [if_pos ⟨i.isLt, hic⟩, hcj j j.isLt]
    by_cases hjc : (j : ℕ) = c
    · rw [if_pos hjc, if_pos hjc, gfMul_comm, gfMul_one_left, UInt8.zero_xor, hjc]
    · rw [if_neg hjc, if_neg hjc, gfMul_comm, gfMul_zero_left, UInt8.xor_zero]

/-! ### The main loop -/

/-- The row swaps of the first turns, latest first on the left. -/
def rowSwaps {k : ℕ} : List (Fin k × Fin k) → Matrix (Fin k) (Fin k) Gf256
  | [] => 1
  | (r, c) :: rest => Matrix.swap Gf256 r c * rowSwaps rest

/-- What the main loop has established after `n` turns, for the input matrix `M`: the recorded
swaps (`turns`, latest first), the exchanged indices `P`, and the tableau in the buffer. -/
structure ElimInv (k : ℕ) (M : Matrix (Fin k) (Fin k) Gf256) (s : Elim) (n : ℕ)
    (turns : List (Fin k × Fin k)) (P : Finset (Fin k)) : Prop where
  len : s.src.length = k * k
  lenC : s.indxc.length = k
  lenR : s.indxr.length = k
  lenP : s.ipiv.length = k
  idRow : s.idRow = List.replicate k 0
  card : P.card = n
  piv : ∀ i : Fin k, s.ipiv.getD i 0 = if i ∈ P then 1 else 0
  count : turns.length = n
  recorded : ∀ i (h : i < turns.length),
    s.indxr.getD (n - 1 - i) 0 = (turns.get ⟨i, h⟩).1
      ∧ s.indxc.getD (n - 1 - i) 0 = (turns.get ⟨i, h⟩).2
  tableau : GaussJordan.Tableau (rowSwaps turns * M) (mat k s.src) P

section Turn

variable {k : ℕ} {M : Matrix (Fin k) (Fin k) Gf256} {s : Elim} {n : ℕ}
  {turns : List (Fin k × Fin k)} {P : Finset (Fin k)}

theorem ElimInv.piv_le (h : ElimInv k M s n turns P) (ix : ℕ) : s.ipiv.getD ix 0 ≤ 1 := by
  by_cases hix : ix < k
  · rw [h.piv ⟨ix, hix⟩]
    split <;> omega
  · rw [List.getD_eq_getElem?_getD, List.getElem?_eq_none (by rw [h.lenP]; omega)]
    simp

theorem ElimInv.piv_eq_zero (h : ElimInv k M s n turns P) (i : Fin k) :
    s.ipiv.getD i 0 = 0 ↔ i ∉ P := by
  rw [h.piv i]
  split <;> simp_all

theorem ElimInv.piv_ne_one (h : ElimInv k M s n turns P) (i : Fin k) :
    s.ipiv.getD i 0 ≠ 1 ↔ i ∉ P := by
  rw [h.piv i]
  split <;> simp_all

theorem choosePivot_some (h : ElimInv k M s n turns P) {col irow icol : ℕ} (hcol : col < k)
    (hp : choosePivot k s col = some (irow, icol)) :
    ∃ r c : Fin k, (r : ℕ) = irow ∧ (c : ℕ) = icol ∧ r ∉ P ∧ c ∉ P ∧ cell k s.src r c ≠ 0 := by
  unfold choosePivot at hp
  split at hp
  · rename_i hc
    obtain ⟨rfl, rfl⟩ : col = irow ∧ col = icol := by simpa using hp
    have hmem := (h.piv_ne_one ⟨col, hcol⟩).mp hc.1
    exact ⟨⟨col, hcol⟩, ⟨col, hcol⟩, rfl, rfl, hmem, hmem, hc.2⟩
  · obtain ⟨hrow, hix, h1, h0, hne⟩ := searchPivot_some hp
    have hrow' := List.mem_range.mp hrow
    exact ⟨⟨irow, hrow'⟩, ⟨icol, hix⟩, rfl, rfl, (h.piv_ne_one ⟨irow, hrow'⟩).mp h1,
      (h.piv_eq_zero ⟨icol, hix⟩).mp h0, hne⟩

/-- No pivot is found only if the input matrix is singular. -/
theorem choosePivot_none (h : ElimInv k M s n turns P) {col : ℕ} (hn : n < k)
    (hp : choosePivot k s col = none) : ¬ IsUnit (rowSwaps turns * M) := by
  unfold choosePivot at hp
  split at hp
  · simp at hp
  · -- fewer than `k` indices are exchanged, so some row is left
    obtain ⟨i, hi⟩ : ∃ i, i ∉ P := by
      by_contra hall
      have huniv : P = Finset.univ := Finset.eq_univ_iff_forall.mpr fun i => by
        by_contra hi
        exact hall ⟨i, hi⟩
      have hcard := h.card
      rw [huniv, Finset.card_univ, Fintype.card_fin] at hcard
      omega
    refine h.tableau.not_isUnit hi fun j hj => Gf256.ext ?_
    exact searchPivot_none h.piv_le hp i (List.mem_range.mpr i.isLt) ((h.piv_ne_one i).mpr hi) j
      j.isLt ((h.piv_eq_zero j).mpr hj)

/-- The buffer after the row swap of a turn. -/
def swapped (k : ℕ) (src : List UInt8) (irow icol : ℕ) : List UInt8 :=
  if irow ≠ icol
    then Buffer.swapLoop 0 (fun ix => irow * k + ix) (fun ix => icol * k + ix) k src
    else src

theorem mat_swapped {src : List UInt8} (hs : src.length = k * k) (r c : Fin k) :
    mat k (swapped k src r c) = Matrix.swap Gf256 r c * mat k src := by
  unfold swapped
  by_cases hrc : r = c
  · subst hrc
    simp [Matrix.swap]
  · rw [if_pos (fun h => hrc (Fin.ext h)), mat_swapRows hs r c hrc]

theorem length_swapped {src : List UInt8} (hs : src.length = k * k) (irow icol : ℕ) :
    (swapped k src irow icol).length = k * k := by
  unfold swapped
  split <;> simp [hs]

/-- The buffer after the elimination of a turn. -/
def eliminated (k : ℕ) (src : List UInt8) (icol : ℕ) (idRow : List UInt8) : List UInt8 :=
  if rowSlice k src icol ≠ idRow then (List.range k).foldl (reduceRow k icol) src else src

theorem mat_eliminated {src : List UInt8} (hs : src.length = k * k) (c : Fin k) :
    mat k (eliminated k (scaleRow k src c) c ((List.replicate k 0).set c 1))
      = GaussJordan.exchange (mat k src) c := by
  have hsc : (scaleRow k src c).length = k * k := by rw [length_scaleRow, hs]
  unfold eliminated
  split
  · exact mat_exchange hs c
  · rename_i hrow
    rw [← mat_eliminate_unit hsc c (not_not.mp hrow), mat_exchange hs c]

theorem length_eliminated {src : List UInt8} (hs : src.length = k * k) (icol : ℕ)
    (idRow : List UInt8) : (eliminated k src icol idRow).length = k * k := by
  unfold eliminated
  split
  · exact length_eliminate hs k le_rfl
  · exact hs

theorem elimCol_eq (k : ℕ) (s : Elim) (col irow icol : ℕ)
    (hp : choosePivot k s col = some (irow, icol))
    (hne : cell k (swapped k s.src irow icol) icol icol ≠ 0) :
    elimCol k s col = some
      { src := eliminated k (scaleRow k (swapped k s.src irow icol) icol) icol (s.idRow.set icol 1)
        indxc := s.indxc.set col icol
        indxr := s.indxr.set col irow
        ipiv := s.ipiv.set icol (s.ipiv.getD icol 0 + 1)
        idRow := (s.idRow.set icol 1).set icol 0 } := by
  unfold elimCol
  rw [hp]
  exact if_neg hne

/-- One turn of the main loop: it stops only on a singular matrix, and otherwise records its swap
and exchanges one more index. -/
theorem elimCol_spec (h : ElimInv k M s n turns P) (hn : n < k) :
    (elimCol k s n = none ∧ ¬ IsUnit (rowSwaps turns * M)) ∨
      ∃ s' t P', elimCol k s n = some s' ∧ ElimInv k M s' (n + 1) (t :: turns) P' := by
  cases hp : choosePivot k s n with
  | none =>
    refine Or.inl ⟨?_, choosePivot_none h hn hp⟩
    rw [elimCol, hp]
    rfl
  | some pos =>
    obtain ⟨irow, icol⟩ := pos
    obtain ⟨r, c, rfl, rfl, hr, hc, hne⟩ := choosePivot_some h hn hp
    have hmat := mat_swapped h.len r c
    have hpiv : mat k (swapped k s.src r c) c c ≠ 0 := by
      rw [hmat, Matrix.swap_mul_apply_right]
      exact fun hz => hne (congrArg Gf256.byte hz)
    have hcell : cell k (swapped k s.src r c) c c ≠ 0 := fun hz => hpiv (Gf256.ext hz)
    have htab : GaussJordan.Tableau (rowSwaps ((r, c) :: turns) * M)
        (mat k (swapped k s.src r c)) P := by
      rw [hmat, rowSwaps, Matrix.mul_assoc]
      exact h.tableau.swap hr hc
    refine Or.inr ⟨_, (r, c), insert c P, elimCol_eq k s n r c hp hcell, ?_⟩
    have hlen := length_swapped h.len r c
    refine
      { len := length_eliminated (by rw [length_scaleRow, hlen]) _ _
        lenC := by rw [List.length_set, h.lenC]
        lenR := by rw [List.length_set, h.lenR]
        lenP := by rw [List.length_set, h.lenP]
        idRow := ?_
        card := by rw [Finset.card_insert_of_notMem hc, h.card]
        piv := ?_
        count := by rw [List.length_cons, h.count]
        recorded := ?_
        tableau := ?_ }
    · rw [h.idRow, List.set_set]
      refine Buffer.ext_getD 0 (by simp) fun i hi => ?_
      rw [Buffer.getD_set]
      split
      · rename_i hic
        rw [List.getD_eq_getElem?_getD, List.getElem?_replicate]
        split <;> rfl
      · rfl
    · intro i
      rw [Buffer.getD_set, h.lenP]
      by_cases hic : (c : ℕ) = i
      · have hci : c = i := Fin.ext hic
        rw [if_pos ⟨hic, c.isLt⟩, (h.piv_eq_zero c).mpr hc, if_pos (by rw [hci]; simp)]
      · rw [if_neg (fun hh => hic hh.1), h.piv i]
        have hiff : i ∈ insert c P ↔ i ∈ P := by
          rw [Finset.mem_insert, or_iff_right (fun hh => hic (by rw [hh]))]
        simp only [hiff]
    · intro i hi
      rw [Buffer.getD_set, Buffer.getD_set, h.lenR, h.lenC]
      cases i with
      | zero =>
        rw [if_pos ⟨by omega, hn⟩, if_pos ⟨by omega, hn⟩]
        exact ⟨rfl, rfl⟩
      | succ i =>
        have hlt : i < turns.length := by simpa using hi
        have hcount := h.count
        have hidx : n + 1 - 1 - (i + 1) = n - 1 - i := by omega
        rw [if_neg (by omega), if_neg (by omega), hidx]
        exact h.recorded i hlt
    · rw [h.idRow, mat_eliminated hlen c]
      exact htab.exchange hc hpiv

end Turn

/-! ### The final loop and the result -/

theorem length_unscramble {src : List UInt8} (k : ℕ) (indxr indxc : List ℕ) (col : ℕ) :
    (unscramble k indxr indxc src col).length = src.length := by
  unfold unscramble
  simp only
  split <;> simp

theorem mat_unscramble {k : ℕ} {src : List UInt8} (hs : src.length = k * k) {indxr indxc : List ℕ}
    {col : ℕ} (r c : Fin k) (hr : indxr.getD col 0 = r) (hc : indxc.getD col 0 = c) :
    mat k (unscramble k indxr indxc src col) = mat k src * Matrix.swap Gf256 r c := by
  rw [unscramble]
  simp only [hr, hc]
  by_cases hrc : r = c
  · subst hrc
    simp [Matrix.swap]
  · have hne : (r : ℕ) ≠ c := fun h => hrc (Fin.ext h)
    rw [if_pos hne]
    refine Matrix.ext fun i j => ?_
    have hf : ∀ a < k, a * k + r < src.length := fun a ha => by rw [hs]; exact cell_lt ha r.isLt
    have hg : ∀ a < k, a * k + c < src.length := fun a ha => by rw [hs]; exact cell_lt ha c.isLt
    have hloop := Buffer.getD_swapLoop (0 : UInt8) (fun row => row * k + r) (fun row => row * k + c)
      k src hf hg (fun a _ b _ h => ((cell_inj r.isLt r.isLt).mp h).1)
      (fun a _ b _ h => ((cell_inj c.isLt c.isLt).mp h).1)
      (fun a _ b _ h => hne ((cell_inj r.isLt c.isLt).mp h).2) i i.isLt
    by_cases hjr : j = r
    · subst hjr
      rw [Matrix.mul_swap_apply_left]
      exact Gf256.ext hloop.1
    · by_cases hjc : j = c
      · subst hjc
        rw [Matrix.mul_swap_apply_right]
        exact Gf256.ext hloop.2
      · rw [Matrix.mul_swap_of_ne hjr hjc]
        have h1 : (r : ℕ) ≠ j := fun h => hjr (Fin.ext h.symm)
        have h2 : (c : ℕ) ≠ j := fun h => hjc (Fin.ext h.symm)
        exact Gf256.ext (Buffer.getD_swapLoop_of_ne 0 _ _ k src _
          (fun a ha => ⟨hf a ha, fun h => h1 ((cell_inj r.isLt j.isLt).mp h).2⟩)
          (fun a ha => ⟨hg a ha, fun h => h2 ((cell_inj c.isLt j.isLt).mp h).2⟩))

theorem isUnit_rowSwaps {k : ℕ} (turns : List (Fin k × Fin k)) : IsUnit (rowSwaps turns) := by
  induction turns with
  | nil => exact isUnit_one
  | cons t turns ih => exact (IsUnit.of_mul_eq_one _ (Matrix.swap_mul_self t.1 t.2)).mul ih

/-- The final loop multiplies by the recorded swaps, latest first. -/
theorem mat_unscrambleAll {k : ℕ} {indxr indxc : List ℕ} (turns : List (Fin k × Fin k))
    (hrec : ∀ i (h : i < turns.length),
      indxr.getD (turns.length - 1 - i) 0 = (turns.get ⟨i, h⟩).1
        ∧ indxc.getD (turns.length - 1 - i) 0 = (turns.get ⟨i, h⟩).2)
    {src : List UInt8} (hs : src.length = k * k) :
    mat k ((List.range turns.length).reverse.foldl (unscramble k indxr indxc) src)
      = mat k src * rowSwaps turns := by
  induction turns generalizing src with
  | nil => simp [rowSwaps]
  | cons t turns ih =>
    have hhead := hrec 0 (by simp)
    have htail : ∀ i (h : i < turns.length),
        indxr.getD (turns.length - 1 - i) 0 = (turns.get ⟨i, h⟩).1
          ∧ indxc.getD (turns.length - 1 - i) 0 = (turns.get ⟨i, h⟩).2 := by
      intro i hi
      have h := hrec (i + 1) (by simpa using hi)
      have hidx : (t :: turns).length - 1 - (i + 1) = turns.length - 1 - i := by
        simp only [List.length_cons]
        omega
      rwa [hidx] at h
    have hidx : (t :: turns).length - 1 - 0 = turns.length := by simp
    rw [hidx] at hhead
    rw [List.length_cons, List.range_succ, List.reverse_append, List.reverse_singleton,
      List.singleton_append, List.foldl_cons, ih htail (by rw [length_unscramble, hs]),
      mat_unscramble hs t.1 t.2 hhead.1 hhead.2, rowSwaps, Matrix.mul_assoc]

theorem length_unscrambleAll {k : ℕ} (indxr indxc l : List ℕ) (src : List UInt8) :
    (l.foldl (unscramble k indxr indxc) src).length = src.length := by
  induction l generalizing src with
  | nil => rfl
  | cons col l ih => rw [List.foldl_cons, ih, length_unscramble]

theorem elimInv_init {k : ℕ} {src : List UInt8} (hs : src.length = k * k) :
    ElimInv k (mat k src) ⟨src, List.replicate k 0, List.replicate k 0, List.replicate k 0,
      List.replicate k 0⟩ 0 [] ∅ where
  len := hs
  lenC := List.length_replicate
  lenR := List.length_replicate
  lenP := List.length_replicate
  idRow := rfl
  card := rfl
  piv i := by
    rw [List.getD_eq_getElem?_getD, List.getElem?_replicate]
    simp
  count := rfl
  recorded i h := by simp at h
  tableau := by
    rw [rowSwaps, Matrix.one_mul]
    exact GaussJordan.tableau_empty _

theorem elimLoop_spec {k : ℕ} {M : Matrix (Fin k) (Fin k) Gf256} {s₀ : Elim}
    (h₀ : ElimInv k M s₀ 0 [] ∅) (n : ℕ) (hn : n ≤ k) :
    ((List.range n).foldlM (elimCol k) s₀ = none ∧ ¬ IsUnit M) ∨
      ∃ s turns P, (List.range n).foldlM (elimCol k) s₀ = some s ∧ ElimInv k M s n turns P := by
  induction n with
  | zero => exact Or.inr ⟨s₀, [], ∅, rfl, h₀⟩
  | succ n ih =>
    rw [List.range_succ, List.foldlM_append]
    rcases ih (by omega) with ⟨hnone, hM⟩ | ⟨s, turns, P, hsome, hinv⟩
    · exact Or.inl ⟨by rw [hnone]; rfl, hM⟩
    · rw [hsome]
      rcases elimCol_spec hinv (by omega) with ⟨hnone, hM⟩ | ⟨s', t, P', hs', hinv'⟩
      · refine Or.inl ⟨?_, fun hu => hM ((isUnit_rowSwaps turns).mul hu)⟩
        simp [hnone]
      · refine Or.inr ⟨s', t :: turns, P', ?_, hinv'⟩
        simp [hs']

/-- `invert_mat` either reports a singular matrix, or leaves a left inverse in the buffer. -/
theorem invertMat_spec {k : ℕ} {src : List UInt8} (hs : src.length = k * k) :
    (invertMat src k = none ∧ ¬ IsUnit (mat k src)) ∨
      ∃ inv, invertMat src k = some inv ∧ inv.length = k * k ∧ mat k inv * mat k src = 1 := by
  rcases elimLoop_spec (elimInv_init hs) k le_rfl with ⟨hnone, hM⟩ | ⟨s, turns, P, hsome, hinv⟩
  · exact Or.inl ⟨by rw [invertMat]; simp [hnone], hM⟩
  · have hP : P = Finset.univ := by
      rw [← Finset.card_eq_iff_eq_univ, hinv.card, Fintype.card_fin]
    have hk : turns.length = k := hinv.count
    have htab := hinv.tableau
    rw [hP] at htab
    refine Or.inr ⟨(List.range k).reverse.foldl (unscramble k s.indxr s.indxc) s.src, ?_, ?_, ?_⟩
    · rw [invertMat]
      simp [hsome]
    · rw [length_unscrambleAll, hinv.len]
    · have hrec : ∀ i (h : i < turns.length),
          s.indxr.getD (turns.length - 1 - i) 0 = (turns.get ⟨i, h⟩).1
            ∧ s.indxc.getD (turns.length - 1 - i) 0 = (turns.get ⟨i, h⟩).2 := by
        intro i hi
        have hidx : turns.length - 1 - i = k - 1 - i := by omega
        rw [hidx]
        exact hinv.recorded i hi
      have hmat := mat_unscrambleAll turns hrec hinv.len
      rw [hk] at hmat
      rw [hmat, Matrix.mul_assoc]
      exact htab.mul_eq_one

theorem invertMat_of_isUnit {k : ℕ} {src : List UInt8} (hs : src.length = k * k)
    (hu : IsUnit (mat k src)) :
    ∃ inv, invertMat src k = some inv ∧ inv.length = k * k ∧ mat k inv * mat k src = 1 :=
  (invertMat_spec hs).resolve_left fun h => h.2 hu

theorem invertMat_some {k : ℕ} {src inv : List UInt8} (hs : src.length = k * k)
    (h : invertMat src k = some inv) : inv.length = k * k ∧ mat k inv * mat k src = 1 := by
  rcases invertMat_spec hs with ⟨hnone, -⟩ | ⟨inv', hsome, hinv⟩
  · rw [hnone] at h
    cases h
  · rw [hsome] at h
    cases h
    exact hinv

/-- `invert_mat` returns 0 if, and only if, the matrix is invertible, and then the buffer holds the
inverse. -/
theorem invertMat_correct (k : ℕ) (src : List UInt8) (hs : src.length = k * k) :
    ((invertMat src k).isSome ↔ IsUnit (mat k src)) ∧
      ∀ inv, invertMat src k = some inv → inv.length = k * k ∧ mat k inv = (mat k src)⁻¹ := by
  constructor
  · constructor
    · intro hsome
      obtain ⟨inv, hinv⟩ := Option.isSome_iff_exists.mp hsome
      have hmul := (invertMat_some hs hinv).2
      exact IsUnit.of_mul_eq_one_right _ hmul
    · intro hu
      obtain ⟨inv, hinv, -⟩ := invertMat_of_isUnit hs hu
      rw [hinv, Option.isSome_some]
  · intro inv hinv
    obtain ⟨hlen, hmul⟩ := invertMat_some hs hinv
    exact ⟨hlen, (Matrix.inv_eq_left_inv hmul).symm⟩

/-- A matrix whose first pivot is not on the diagonal. -/
theorem invertMat_correct_swap : ∃ inv, invertMat [0, 2, 1, 3] 2 = some inv ∧
    mat 2 inv = (mat 2 [0, 2, 1, 3])⁻¹ := by
  obtain ⟨inv, hinv⟩ : ∃ inv, invertMat [0, 2, 1, 3] 2 = some inv :=
    Option.isSome_iff_exists.mp (by decide +kernel)
  exact ⟨inv, hinv, ((invertMat_correct 2 [0, 2, 1, 3] rfl).2 inv hinv).2⟩

end Udpcast.Fec
