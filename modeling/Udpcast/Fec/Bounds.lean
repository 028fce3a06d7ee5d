import Udpcast.Fec.Coder

/-!
# When `fec_decode` stays within its arrays (fec.rs:251-313)

The parity numbers and the payloads come from the network.  `DecodeFits` are the calls in which no
index leaves the `INVERSE` table and no byte past the end of a payload is used.
-/

namespace Udpcast.Fec

/-- The parity blocks `sel`, each with its number, for the data blocks below `nrData`, of which those
at the positions `erased` are missing. -/
structure DecodeFits (blockSize nrData : ℕ) (sel : List (ℕ × List UInt8)) (erased : List ℕ) :
    Prop where
  /-- Every data block that is there is subtracted; a coefficient 0 is skipped. -/
  reduces : ∀ p ∈ sel, ∀ col < nrData, col ∉ erased → p.1 ^^^ col ^^^ 128 < 256 ∧
    (p.1 ^^^ col ^^^ 128 = 0 ∨ blockSize ≤ p.2.length)
  solves : ∀ p ∈ sel, ∀ col ∈ erased, (128 + p.1) ^^^ col < 256
  /-- A payload that is too short is used, unless the system cannot be solved. -/
  rebuilds : (∀ p ∈ sel, blockSize ≤ p.2.length) ∨
    ∀ matrix ∈ erasedMatrix sel.length (sel.map (·.1)) erased, invertMat matrix sel.length = none

instance (blockSize nrData : ℕ) (sel : List (ℕ × List UInt8)) (erased : List ℕ) :
    Decidable (DecodeFits blockSize nrData sel erased) :=
  decidable_of_iff ((∀ p ∈ sel, ∀ col < nrData, col ∉ erased → p.1 ^^^ col ^^^ 128 < 256 ∧
      (p.1 ^^^ col ^^^ 128 = 0 ∨ blockSize ≤ p.2.length)) ∧
    (∀ p ∈ sel, ∀ col ∈ erased, (128 + p.1) ^^^ col < 256) ∧
    ((∀ p ∈ sel, blockSize ≤ p.2.length) ∨
      ∀ matrix ∈ erasedMatrix sel.length (sel.map fun p : ℕ × List UInt8 => p.1) erased,
        invertMat matrix sel.length = none))
    ⟨fun h => ⟨h.1, h.2.1, h.2.2⟩, fun h => ⟨h.reduces, h.solves, h.rebuilds⟩⟩

theorem gfInv_zero : gfInv 0 = 0 := by
  rw [gfInv_eq]
  exact if_pos rfl

theorem eachBlock_ok (op : ℕ → List UInt8 → Option (List UInt8)) (blocks : List (List UInt8))
    (hop : ∀ row < blocks.length, ∃ b, op row (blocks.getD row []) = some b ∧
      b.length = (blocks.getD row []).length) :
    ∃ blocks', eachBlock op blocks = some blocks' ∧
      blocks'.map List.length = blocks.map List.length := by
  have key : ∀ (l : List (List UInt8)) (k : ℕ),
      (∀ j < l.length, ∃ b, op (k + j) (l.getD j []) = some b ∧ b.length = (l.getD j []).length) →
      ∃ l', (l.zipIdx k).mapM (fun p => op p.2 p.1) = some l' ∧
        l'.map List.length = l.map List.length := by
    intro l
    induction l with
    | nil => exact fun _ _ => ⟨[], rfl, rfl⟩
    | cons b l ih =>
      intro k h
      obtain ⟨b', hb', hlen⟩ := h 0 (Nat.zero_lt_succ _)
      have hidx : ∀ j, k + 1 + j = k + (j + 1) := fun j => by omega
      obtain ⟨l', hl', hlens⟩ := ih (k + 1) fun j hj => by
        rw [hidx]
        exact h (j + 1) (Nat.succ_lt_succ hj)
      refine ⟨b' :: l', ?_, ?_⟩
      · rw [List.zipIdx_cons, List.mapM_cons, hl']
        rw [Nat.add_zero, List.getD_cons_zero] at hb'
        rw [hb']
        rfl
      · rw [List.map_cons, List.map_cons, hlens, hlen, List.getD_cons_zero]
  obtain ⟨blocks', h, hlens⟩ := key blocks 0 fun j hj => by
    rw [Nat.zero_add]
    exact hop j hj
  exact ⟨blocks', h, hlens⟩

theorem addmul_ok {dst src : List UInt8} {blockSize idx : ℕ} (hidx : idx < 256)
    (hsrc : blockSize ≤ src.length) (hdst : idx = 0 ∨ blockSize ≤ dst.length) :
    ∃ b, (do addmulChecked dst src (← inverse idx) blockSize) = some b ∧
      b.length = dst.length := by
  have hgo : gfInv (UInt8.ofNat idx) = 0 ∨ (blockSize ≤ dst.length ∧ blockSize ≤ src.length) := by
    rcases hdst with rfl | hdst
    · exact Or.inl gfInv_zero
    · exact Or.inr ⟨hdst, hsrc⟩
  have hadd : addmulChecked dst src (gfInv (UInt8.ofNat idx)) blockSize
      = some (addmul dst src (gfInv (UInt8.ofNat idx)) blockSize) := if_pos hgo
  refine ⟨_, ?_, length_addmulChecked hadd⟩
  rw [inverse_of_lt hidx]
  exact hadd

section Decode

variable {blockSize n : ℕ} {nos erased : List ℕ}

theorem getD_length_of_map {fec fec' : List (List UInt8)}
    (h : fec'.map List.length = fec.map List.length) (j : ℕ) :
    (fec'.getD j []).length = (fec.getD j []).length := by
  have hj := congrArg (fun l => l[j]?) h
  simp only [List.getElem?_map] at hj
  rw [List.getD_eq_getElem?_getD, List.getD_eq_getElem?_getD]
  cases hfec : fec[j]? with
  | none =>
    rw [hfec, Option.map_none, Option.map_eq_none_iff] at hj
    rw [hj]
  | some b =>
    rw [hfec, Option.map_some] at hj
    obtain ⟨b', hb', hlen⟩ := Option.map_eq_some_iff.mp hj
    rw [hb']
    exact hlen

theorem reduceLoop_ok (hnos : nos.length = n) (herased : erased.length = n)
    (hsorted : erased.Pairwise (· < ·)) {data : List (List UInt8)} {k e : ℕ}
    (hsize : ∀ b ∈ data, b.length = blockSize) (hat : ErasedAt erased e k)
    {fec : List (List UInt8)} (hlen : fec.length = n)
    (hfits : ∀ j < n, ∀ col < k + data.length, col ∉ erased →
      nos.getD j 0 ^^^ col ^^^ 128 < 256 ∧
        (nos.getD j 0 ^^^ col ^^^ 128 = 0 ∨ blockSize ≤ (fec.getD j []).length)) :
    ∃ e' reduced, (data.zipIdx k).foldlM (reduceCol blockSize n nos erased) (e, fec)
        = some (e', reduced) ∧ reduced.map List.length = fec.map List.length := by
  induction data generalizing k e fec with
  | nil => exact ⟨e, fec, rfl, rfl⟩
  | cons block data ih =>
    have hskip := hat.isErased hsorted herased
    have htailSize := fun b (hb : b ∈ data) => hsize b (List.mem_cons_of_mem _ hb)
    rw [List.length_cons] at hfits
    by_cases hin : k ∈ erased
    · have hstep : reduceCol blockSize n nos erased (e, fec) (block, k) = some (e + 1, fec) := by
        simp [reduceCol, hskip, hin]
      obtain ⟨e', reduced, hloop, hlens⟩ := ih htailSize (hat.skip hsorted hin) hlen
        fun j hj col hcol => hfits j hj col (by omega)
      refine ⟨e', reduced, ?_, hlens⟩
      rw [List.zipIdx_cons, List.foldlM_cons, hstep]
      exact hloop
    · obtain ⟨fec₁, hmul, hlens₁⟩ := eachBlock_ok
        (fun j b => do addmulChecked b block (← inverse ((← nos[j]?) ^^^ k ^^^ 128)) blockSize) fec
        fun j hj => by
          obtain ⟨hidx, hlong⟩ := hfits j (by omega) k (by omega) hin
          have hlt : j < nos.length := by omega
          rw [List.getD_eq_getElem _ _ hlt] at hidx hlong
          obtain ⟨b, hb, hblen⟩ := addmul_ok hidx (hsize block List.mem_cons_self).ge hlong
          refine ⟨b, ?_, hblen⟩
          rw [List.getElem?_eq_getElem hlt]
          exact hb
      have hstep : reduceCol blockSize n nos erased (e, fec) (block, k) = some (e, fec₁) := by
        simp only [reduceCol, hskip, hin, decide_false, Option.bind_eq_bind, Option.bind_some,
          Bool.false_eq_true, if_false] at hmul ⊢
        rw [hmul]
        rfl
      have hlen₁ : fec₁.length = n := by
        have hcount := congrArg List.length hlens₁
        rw [List.length_map, List.length_map] at hcount
        rw [hcount, hlen]
      obtain ⟨e', reduced, hloop, hlens⟩ := ih htailSize (hat.keep hin) hlen₁
        fun j hj col hcol hnot => by
          rw [getD_length_of_map hlens₁]
          exact hfits j hj col (by omega) hnot
      refine ⟨e', reduced, ?_, hlens.trans hlens₁⟩
      rw [List.zipIdx_cons, List.foldlM_cons, hstep]
      exact hloop

theorem erasedMatrix_ok (hnos : nos.length = n) (herased : erased.length = n)
    (hfits : ∀ no ∈ nos, ∀ col ∈ erased, (128 + no) ^^^ col < 256) :
    ∃ m, erasedMatrix n nos erased = some m ∧ m.length = n * n := by
  refine Fold.foldlM_exists (P := fun m : List UInt8 => m.length = n * n) (fun p hp m hm => ?_)
    List.length_replicate
  obtain ⟨no, row⟩ := p
  have hno := List.mk_mem_zipIdx_iff_getElem?.mp hp
  have hrow : row < n := by
    rw [← hnos]
    exact (List.getElem?_eq_some_iff.mp hno).1
  refine Fold.foldlM_exists (P := fun m : List UInt8 => m.length = n * n) (fun q hq m hm => ?_) hm
  obtain ⟨a, col⟩ := q
  have ha := List.mk_mem_zipIdx_iff_getElem?.mp hq
  have hcol : col < n := by
    rw [← herased]
    exact (List.getElem?_eq_some_iff.mp ha).1
  have hlt : row * n + col < m.length := by
    rw [hm]
    exact cell_lt hrow hcol
  refine ⟨m.set (row * n + col) (gfInv (UInt8.ofNat ((128 + no) ^^^ a))), ?_, ?_⟩
  · dsimp only
    rw [inverse_of_lt (hfits no (List.mem_of_getElem? hno) a (List.mem_of_getElem? ha))]
    exact if_pos hlt
  · rw [List.length_set, hm]

theorem rebuildBlocks_ok {nrData : ℕ} {inv : List UInt8} (hinv : inv.length = n * n)
    {reduced : List (List UInt8)} (hcount : reduced.length = n)
    (hlong : ∀ b ∈ reduced, blockSize ≤ b.length) (herased : erased.length = n)
    (hlt : ∀ a ∈ erased, a < nrData) {data : List (List UInt8)} (hd : Blocks blockSize nrData data) :
    ∃ data', erased.zipIdx.foldlM (rebuildBlock blockSize n inv reduced) data = some data' ∧
      Blocks blockSize nrData data' := by
  refine Fold.foldlM_exists (fun p hp data hd => ?_) hd
  obtain ⟨a, row⟩ := p
  have ha := List.mk_mem_zipIdx_iff_getElem?.mp hp
  have hrow : row < n := by
    rw [← herased]
    exact (List.getElem?_eq_some_iff.mp ha).1
  have hget := hd.getElem? (hlt a (List.mem_of_getElem? ha))
  have hsize : (data.getD a []).length = blockSize := hd.getD (hlt a (List.mem_of_getElem? ha))
  have hcell : ∀ col < n, inv[row * n + col]? = some (cell n inv row col) := by
    intro col hcol
    have hin : row * n + col < inv.length := by
      rw [hinv]
      exact cell_lt hrow hcol
    rw [List.getElem?_eq_getElem hin, cell, List.getD_eq_getElem _ _ hin]
  have hsrc : ∀ col < n, ∃ b, reduced[col]? = some b ∧ blockSize ≤ b.length := by
    intro col hcol
    have hin : col < reduced.length := by omega
    exact ⟨reduced[col], List.getElem?_eq_getElem hin, hlong _ (List.getElem_mem hin)⟩
  obtain ⟨b₀, hb₀, hlong₀⟩ := hsrc 0 (by omega)
  have hfirst : mulChecked (data.getD a []) b₀ (cell n inv row 0) blockSize
      = some (mul (data.getD a []) b₀ (cell n inv row 0) blockSize) :=
    if_pos ⟨hsize.ge, Or.inr hlong₀⟩
  obtain ⟨target, hloop, htarget⟩ := Fold.foldlM_exists (l := (List.range n).drop 1)
    (g := fun target col => do
      addmulChecked target (← reduced[col]?) (← inv[row * n + col]?) blockSize)
    (P := fun t : List UInt8 => t.length = blockSize) (fun col hcol t ht => by
      have hcol' : col < n := List.mem_range.mp (List.mem_of_mem_drop hcol)
      obtain ⟨b, hb, hblong⟩ := hsrc col hcol'
      have hadd : addmulChecked t b (cell n inv row col) blockSize
          = some (addmul t b (cell n inv row col) blockSize) := if_pos (Or.inr ⟨ht.ge, hblong⟩)
      refine ⟨_, ?_, (length_addmulChecked hadd).trans ht⟩
      rw [hb, hcell col hcol']
      exact hadd) ((length_mulChecked hfirst).trans hsize)
  refine ⟨data.set a target, ?_, hd.set a htarget⟩
  have hcell₀ : inv[row * n]? = some (cell n inv row 0) := hcell 0 (by omega)
  simp only [rebuildBlock, hget, hb₀, hcell₀, hfirst, Option.bind_eq_bind, Option.bind_some] at hloop ⊢
  rw [hloop]
  rfl

theorem fecDecode_ok {sel : List (ℕ × List UInt8)} {nrData : ℕ} {data : List (List UInt8)}
    (hfits : DecodeFits blockSize nrData sel erased) (hd : Blocks blockSize nrData data)
    (herased : erased.length = sel.length) (hsorted : erased.Pairwise (· < ·))
    (hlt : ∀ a ∈ erased, a < nrData) :
    ∃ ok data', fecDecode blockSize data (sel.map (·.2)) (sel.map (·.1)) erased = some (ok, data') ∧
      Blocks blockSize nrData data' := by
  have hnos : (sel.map (·.1)).length = sel.length := List.length_map ..
  have hfec : (sel.map (·.2)).length = sel.length := List.length_map ..
  have hcolumn : ∀ j < sel.length, ∀ col < 0 + data.length, col ∉ erased →
      (sel.map (·.1)).getD j 0 ^^^ col ^^^ 128 < 256 ∧ ((sel.map (·.1)).getD j 0 ^^^ col ^^^ 128 = 0 ∨
        blockSize ≤ ((sel.map (·.2)).getD j []).length) := by
    intro j hj col hcol hnot
    rw [Nat.zero_add, hd.length] at hcol
    rw [List.getD_eq_getElem _ _ (by omega), List.getD_eq_getElem _ _ (by omega), List.getElem_map,
      List.getElem_map]
    exact hfits.reduces _ (List.getElem_mem hj) col hcol hnot
  obtain ⟨e, reduced, hreduce, hlens⟩ :=
    reduceLoop_ok hnos herased hsorted hd.size (erasedAt_zero erased) hfec hcolumn
  obtain ⟨matrix, hmatrix, hmlen⟩ := erasedMatrix_ok hnos herased fun no hno col hcol => by
    obtain ⟨p, hp, rfl⟩ := List.mem_map.mp hno
    exact hfits.solves p hp col hcol
  cases hinv : invertMat matrix sel.length with
  | none =>
    refine ⟨false, data, ?_, hd⟩
    simp only [fecDecode, hfec, hreduce, hmatrix, hinv, Option.bind_eq_bind, Option.bind_some]
  | some inv =>
    have hlong : ∀ b ∈ reduced, blockSize ≤ b.length := by
      rcases hfits.rebuilds with hlong | hnone
      · intro b hb
        have hmem : b.length ∈ reduced.map List.length := List.mem_map_of_mem hb
        rw [hlens, List.map_map] at hmem
        obtain ⟨p, hp, hplen⟩ := List.mem_map.mp hmem
        rw [← hplen]
        exact hlong p hp
      · rw [hnone matrix hmatrix] at hinv
        cases hinv
    have hcount : reduced.length = sel.length := by
      have hlen := congrArg List.length hlens
      rwa [List.length_map, List.length_map, hfec] at hlen
    obtain ⟨data', hloop, hd'⟩ :=
      rebuildBlocks_ok (invertMat_some hmlen hinv).1 hcount hlong herased hlt hd
    refine ⟨true, data', ?_, hd'⟩
    simp only [fecDecode, hfec, hreduce, hmatrix, hinv, Option.bind_eq_bind, Option.bind_some]
    rw [hloop]
    rfl

end Decode

end Udpcast.Fec
