import AffineLoops.Lattice.Hermite
import AffineLoops.Proofs.Iteration
import AffineLoops.Proofs.Matrix.Operations
import Mathlib.LinearAlgebra.Matrix.Block
import Mathlib.LinearAlgebra.Matrix.NonsingularInverse
/-!
# Correctness of the Hermite normal form

Every step of the algorithm is a column operation on both matrices, so the product relation between
them and the unimodularity of the second never change. The first loop clears the rows right of the
diagonal from the top down, the second one reduces the entries left of it; neither touches what is
already in its final form.

## Main definitions

- `HermiteForm.Represents` — what column operations preserve
- `HermiteForm.ClearedAbove`, `HermiteForm.ReducedAbove` — what the two loops establish
- `HermiteForm.IsFormOf` — a Hermite normal form of a square matrix
-/

namespace AffineLoops.HermiteForm

open Matrix IntMatrix DenseMatrix

variable {n : ℕ} {f : HermiteForm} {M : Matrix (Fin n) (Fin n) ℤ}

/-- The first matrix of the pair is `M` times the second one, which is unimodular. -/
structure Represents (f : HermiteForm) (M : Matrix (Fin n) (Fin n) ℤ) : Prop where
  triangular_rows : f.triangular.rows = n
  triangular_cols : f.triangular.cols = n
  unimodular_rows : f.unimodular.rows = n
  unimodular_cols : f.unimodular.cols = n
  product : f.triangular.toMatrix n n = M * f.unimodular.toMatrix n n
  unit : IsUnit (f.unimodular.toMatrix n n).det

/-- Column operations on both matrices keep the relation between them. -/
theorem Represents.mapBoth {op : IntMatrix → IntMatrix} (h : f.Represents M)
    (hop : IsColumnOperation n op) : (f.mapBoth op).Represents M := by
  obtain ⟨e, he, hmul⟩ := hop
  obtain ⟨hr, hc, hview⟩ := hmul f.triangular n h.triangular_rows h.triangular_cols
  obtain ⟨hr', hc', hview'⟩ := hmul f.unimodular n h.unimodular_rows h.unimodular_cols
  refine ⟨hr, hc, hr', hc', ?_, ?_⟩
  · change (op f.triangular).toMatrix n n = M * (op f.unimodular).toMatrix n n
    rw [hview, hview', h.product, Matrix.mul_assoc]
  · change IsUnit ((op f.unimodular).toMatrix n n).det
    rw [hview', det_mul]
    exact h.unit.mul he

/-- The rows above row `i` are in lower triangular form with non-negative diagonal entries. -/
def ClearedAbove (m : IntMatrix) (i : ℕ) : Prop :=
  ∀ r < i, (∀ c, r < c → m.entry r c = 0) ∧ 0 ≤ m.entry r r

/-- The entries left of a positive diagonal entry are reduced modulo it, in the rows above `i`. -/
def ReducedAbove (m : IntMatrix) (i : ℕ) : Prop :=
  ∀ r < i, 0 < m.entry r r → ∀ c < r, 0 ≤ m.entry r c ∧ m.entry r c < m.entry r r

theorem ClearedAbove.congr {m m' : IntMatrix} {i : ℕ} (h : ClearedAbove m i)
    (heq : ∀ r < i, ∀ c, m'.entry r c = m.entry r c) : ClearedAbove m' i := by
  intro r hr
  refine ⟨fun c hc => ?_, ?_⟩
  · rw [heq r hr c, (h r hr).1 c hc]
  · rw [heq r hr r]
    exact (h r hr).2

theorem ClearedAbove.succ {m : IntMatrix} {i : ℕ} (h : ClearedAbove m i)
    (hi : ∀ c, i < c → m.entry i c = 0) (hdiag : 0 ≤ m.entry i i) : ClearedAbove m (i + 1) := by
  intro r hr
  by_cases hri : r = i
  · subst hri
    exact ⟨hi, hdiag⟩
  · exact h r (by omega)

/-! ### Clearing a row -/

theorem Represents.sweepRow (h : f.Represents M) {i : ℕ} (hi : i < n) :
    (f.sweepRow i).Represents M := by
  unfold HermiteForm.sweepRow
  split
  · exact h
  · next c hc =>
    have hcn := (mem_positions.mp (leastMagnitude?_eq_some hc).1).2
    rw [h.triangular_cols] at hcn
    have hswap := h.mapBoth (isColumnOperation_swapCols ⟨i, hi⟩ ⟨c, hcn⟩)
    refine hswap.mapBoth (isColumnOperation_subColMultiples ⟨i, hi⟩ ?_)
    simp [rightQuotients]

/-- A turn on row `i` changes no row above it that is already cleared, since it only mixes columns
that are zero there. -/
theorem entry_sweepRow {i r c : ℕ} (h : ClearedAbove f.triangular i) (hr : r < i) :
    (f.sweepRow i).triangular.entry r c = f.triangular.entry r c := by
  by_cases hin : r < f.triangular.rows ∧ c < f.triangular.cols
  swap
  · rw [entry_eq_zero hin, entry_eq_zero (by simpa using hin)]
  unfold HermiteForm.sweepRow
  split
  · rfl
  · next k hk =>
    have hk' := mem_positions.mp (leastMagnitude?_eq_some hk).1
    -- both exchanged columns are right of the diagonal in row `r`, or column `i` itself
    have hzero := (h r hr).1
    have hswap : ∀ j < f.triangular.cols,
        (f.triangular.swapCols i k).entry r j = f.triangular.entry r j := by
      intro j hj
      rw [entry_swapCols hin.1 hj, swapIndex]
      split
      · next hji => rw [hzero k (by omega), hzero j (by omega)]
      · split
        · next hjk => rw [hzero i hr, hzero j (by omega)]
        · rfl
    change ((f.triangular.swapCols i k).subColMultiples i _).entry r c = _
    have hrow : r < (f.triangular.swapCols i k).rows := hin.1
    rw [entry_subColMultiples hrow hin.2, hswap c hin.2, hswap i (by omega), hzero i hr, mul_zero,
      sub_zero]

/-- What every turn on row `i` preserves holds when the row is cleared. -/
theorem clearRow_induction {P : HermiteForm → Prop} {i : ℕ}
    (step : ∀ g : HermiteForm, P g → P (g.sweepRow i)) (h : P f) : P (clearRow i f) := by
  fun_induction clearRow i f with
  | case1 f hdone => exact h
  | case2 f hleft ih => exact ih (step f h)

/-- The loop on row `i` ends with nothing left right of the diagonal. -/
theorem isCleared_clearRow (i : ℕ) (f : HermiteForm) : isCleared (clearRow i f).triangular i := by
  fun_induction clearRow i f with
  | case1 f hdone => exact hdone
  | case2 f hleft ih => exact ih

/-- Bringing row `i` into triangular form leaves the rows above it alone. -/
theorem triangularizeRow_spec {i : ℕ} (hi : i < n) (h : f.Represents M)
    (hcleared : ClearedAbove f.triangular i) :
    (f.triangularizeRow i).Represents M ∧ ClearedAbove (f.triangularizeRow i).triangular (i + 1) := by
  obtain ⟨hrep, habove⟩ := clearRow_induction (i := i)
    (P := fun g => g.Represents M ∧ ClearedAbove g.triangular i)
    (fun g hg => ⟨hg.1.sweepRow hi, hg.2.congr fun r hr c => entry_sweepRow hg.2 hr⟩) ⟨h, hcleared⟩
  have hright : ∀ c, i < c → (clearRow i f).triangular.entry i c = 0 :=
    isCleared_iff.mp (isCleared_clearRow i f)
  unfold triangularizeRow
  generalize clearRow i f = g at hrep habove hright
  unfold fixSign
  split
  · next hneg =>
    refine ⟨hrep.mapBoth (isColumnOperation_negateCol ⟨i, hi⟩), ?_⟩
    change ClearedAbove (g.triangular.negateCol i) (i + 1)
    have hentry : ∀ r < n, ∀ c, c ≠ i →
        (g.triangular.negateCol i).entry r c = g.triangular.entry r c := by
      intro r hr c hc
      by_cases hcn : c < n
      · rw [entry_negateCol (by rw [hrep.triangular_rows]; exact hr)
          (by rw [hrep.triangular_cols]; exact hcn), if_neg hc]
      · rw [entry_eq_zero (by simp [hrep.triangular_cols, hcn]),
          entry_eq_zero (by simp [hrep.triangular_cols, hcn])]
    have hcol : ∀ r < n, (g.triangular.negateCol i).entry r i = -g.triangular.entry r i := by
      intro r hr
      rw [entry_negateCol (by rw [hrep.triangular_rows]; exact hr)
        (by rw [hrep.triangular_cols]; exact hi), if_pos rfl]
    -- the sign changes in column `i` only, where the rows above are zero
    refine ClearedAbove.succ (habove.congr fun r hr c => ?_) (fun c hc => ?_) ?_
    · by_cases hci : c = i
      · subst hci
        rw [hcol r (by omega), (habove r hr).1 c hr, neg_zero]
      · exact hentry r (by omega) c hci
    · rw [hentry i hi c (by omega), hright c hc]
    · rw [hcol i hi]
      omega
  · next hnonneg => exact ⟨hrep, habove.succ hright (by omega)⟩

/-! ### Reducing a row -/

/-- Reducing row `i` changes no row above it, no diagonal entry and nothing right of the
diagonal. -/
theorem entry_reduceRow {i r c : ℕ} (hcleared : ClearedAbove f.triangular n) (hi : i < n)
    (hkeep : r < i ∨ i ≤ c) :
    (f.reduceRow i).triangular.entry r c = f.triangular.entry r c := by
  by_cases hin : r < f.triangular.rows ∧ c < f.triangular.cols
  swap
  · rw [entry_eq_zero hin]
    unfold reduceRow
    split
    · exact entry_eq_zero hin
    · exact entry_eq_zero hin
  unfold reduceRow
  split
  · rfl
  · change (f.triangular.subColMultiples i _).entry r c = _
    rw [entry_subColMultiples hin.1 hin.2]
    -- above row `i` the subtracted column is zero, and from column `i` on the quotients are
    rcases hkeep with hr | hc
    · rw [(hcleared r (by omega)).1 i hr, mul_zero, sub_zero]
    · rw [leftQuotients, if_neg (by omega), zero_mul, sub_zero]

theorem reduceRow_spec {i : ℕ} (hi : i < n) (h : f.Represents M)
    (hcleared : ClearedAbove f.triangular n) (hreduced : ReducedAbove f.triangular i) :
    (f.reduceRow i).Represents M ∧ ClearedAbove (f.reduceRow i).triangular n ∧
      ReducedAbove (f.reduceRow i).triangular (i + 1) := by
  have hrep : (f.reduceRow i).Represents M := by
    unfold reduceRow
    split
    · exact h
    · exact h.mapBoth (isColumnOperation_subColMultiples ⟨i, hi⟩ (by simp [leftQuotients]))
  have hdiag : ∀ r, (f.reduceRow i).triangular.entry r r = f.triangular.entry r r := fun r =>
    entry_reduceRow hcleared hi (by omega)
  refine ⟨hrep, fun r hr => ⟨fun c hc => ?_, ?_⟩, fun r hr hpos c hc => ?_⟩
  · rw [entry_reduceRow hcleared hi (by omega), (hcleared r hr).1 c hc]
  · rw [hdiag]
    exact (hcleared r hr).2
  · rw [hdiag] at hpos ⊢
    by_cases hri : r = i
    · subst hri
      unfold reduceRow
      rw [if_neg (by omega)]
      change 0 ≤ (f.triangular.subColMultiples r _).entry r c ∧
        (f.triangular.subColMultiples r _).entry r c < _
      rw [entry_subColMultiples (by rw [h.triangular_rows]; exact hi)
        (by rw [h.triangular_cols]; omega), leftQuotients, if_pos hc, Rounding.quotient,
        mul_comm, ← Int.fmod_def]
      exact ⟨Int.fmod_nonneg_of_pos _ hpos, Int.fmod_lt_of_pos _ hpos⟩
    · rw [entry_reduceRow hcleared hi (by omega)]
      exact hreduced r (by omega) hpos c hc

/-! ### The normal form -/

/-- A Hermite normal form of a square matrix. -/
structure IsFormOf (f : HermiteForm) (m : IntMatrix) : Prop where
  /-- The second matrix has the size of the given one. -/
  unimodular_rows : f.unimodular.rows = m.rows
  unimodular_cols : f.unimodular.cols = m.rows
  /-- The first matrix is the product of the given one and the second. -/
  product : m.mul? f.unimodular = some f.triangular
  /-- The second matrix is invertible over the integers. -/
  unimodular : (f.unimodular.toMatrix m.rows m.rows).det = 1 ∨
    (f.unimodular.toMatrix m.rows m.rows).det = -1
  /-- Nothing stands right of the diagonal. -/
  lower_triangular : ∀ i j, i < j → f.triangular.entry i j = 0
  diagonal_nonneg : ∀ i, 0 ≤ f.triangular.entry i i
  /-- The entries left of a positive diagonal entry are residues modulo it. -/
  reduced : ∀ i, 0 < f.triangular.entry i i → ∀ j < i,
    0 ≤ f.triangular.entry i j ∧ f.triangular.entry i j < f.triangular.entry i i

/-- The algorithm on a square matrix, with what its two loops establish. -/
theorem ofMatrix_eq_ok {m : IntMatrix} (hr : m.rows = n) (hc : m.cols = n) :
    ∃ f, ofMatrix m = .ok f ∧ f.Represents (m.toMatrix n n) ∧ ClearedAbove f.triangular n ∧
      ReducedAbove f.triangular n := by
  have hstart : (HermiteForm.mk m (identity n)).Represents (m.toMatrix n n) :=
    ⟨hr, hc, rfl, rfl, by rw [toMatrix_identity, Matrix.mul_one],
      by rw [toMatrix_identity, det_one]; exact isUnit_one⟩
  obtain ⟨hrep, hcleared⟩ := foldl_range_induction (f := triangularizeRow)
    (P := fun i g => g.Represents (m.toMatrix n n) ∧ ClearedAbove g.triangular i) n
    ⟨hstart, fun r h => absurd h (Nat.not_lt_zero r)⟩
    (fun i hi g hg => triangularizeRow_spec hi hg.1 hg.2)
  obtain ⟨hrep, hcleared, hreduced⟩ := foldl_range_induction (f := reduceRow)
    (P := fun i g => g.Represents (m.toMatrix n n) ∧ ClearedAbove g.triangular n ∧
      ReducedAbove g.triangular i) n
    ⟨hrep, hcleared, fun r h => absurd h (Nat.not_lt_zero r)⟩
    (fun i hi g hg => reduceRow_spec hi hg.1 hg.2.1 hg.2.2)
  refine ⟨_, ?_, hrep, hcleared, hreduced⟩
  rw [ofMatrix, if_pos (by rw [isSquare, hr, hc]; exact beq_self_eq_true n)]
  simp only [hr]

/-- What the two loops establish is a Hermite normal form. -/
theorem Represents.isFormOf {m : IntMatrix} (hr : m.rows = n) (hc : m.cols = n)
    (h : f.Represents (m.toMatrix n n)) (hcleared : ClearedAbove f.triangular n)
    (hreduced : ReducedAbove f.triangular n) : f.IsFormOf m := by
  -- outside the matrix entries read as zero, so the conditions extend to all positions
  have houtside : ∀ i j, ¬i < n → f.triangular.entry i j = 0 := fun i j hi =>
    entry_eq_zero (by simp [h.triangular_rows, hi])
  subst hr
  refine ⟨h.unimodular_rows, h.unimodular_cols, ?_, Int.isUnit_iff.mp h.unit, fun i j hij => ?_,
    fun i => ?_, fun i hi j hj => ?_⟩
  · exact (mul?_eq_some rfl hc h.unimodular_rows h.unimodular_cols h.triangular_rows
      h.triangular_cols).mpr h.product
  · by_cases hi : i < m.rows
    · exact (hcleared i hi).1 j hij
    · exact houtside i j hi
  · by_cases hi : i < m.rows
    · exact (hcleared i hi).2
    · rw [houtside i i hi]
  · by_cases hin : i < m.rows
    · exact hreduced i hin hi j hj
    · rw [houtside i i hin] at hi
      omega

/-- The product of the diagonal entries is the volume of the lattice. -/
theorem Represents.prod_diagonal (h : f.Represents M) (hcleared : ClearedAbove f.triangular n) :
    f.diagonal.prod = |M.det| := by
  have hlower : (f.triangular.toMatrix n n).IsLowerTriangular := fun i j hij =>
    (hcleared i i.2).1 j (OrderDual.toDual_lt_toDual.mp hij)
  have hdet : (f.triangular.toMatrix n n).det = f.diagonal.prod := by
    rw [det_of_isLowerTriangular _ hlower, diagonal, h.triangular_rows]
    simp only [toMatrix_apply]
    rw [Fin.prod_univ_eq_prod_range (fun i => f.triangular.entry i i)]
    rfl
  have hnonneg : 0 ≤ f.diagonal.prod := by
    apply List.prod_nonneg
    intro x hx
    obtain ⟨i, hi, rfl⟩ := List.mem_map.mp hx
    exact (hcleared i (by simpa [h.triangular_rows] using hi)).2
  have hunit : |(f.unimodular.toMatrix n n).det| = 1 := Int.isUnit_iff_abs_eq.mp h.unit
  rw [← abs_of_nonneg hnonneg, ← hdet, h.product, det_mul, abs_mul, hunit, mul_one]

/-- A full lattice has a positive diagonal. -/
theorem Represents.diagonal_pos (h : f.Represents M) (hcleared : ClearedAbove f.triangular n)
    (hdet : M.det ≠ 0) {i : ℕ} (hi : i < n) : 0 < f.triangular.entry i i := by
  have hmem : f.triangular.entry i i ∈ f.diagonal :=
    List.mem_map_of_mem (List.mem_range.mpr (by rw [h.triangular_rows]; exact hi))
  have hne : f.diagonal.prod ≠ 0 := by
    rw [h.prod_diagonal hcleared]
    exact abs_ne_zero.mpr hdet
  have hentry : f.triangular.entry i i ≠ 0 := fun h0 => hne (List.prod_eq_zero (h0 ▸ hmem))
  exact lt_of_le_of_ne (hcleared i hi).2 hentry.symm

theorem range_mulVec_mul_subset (a v : Matrix (Fin n) (Fin n) ℤ) :
    Set.range ((a * v) *ᵥ ·) ⊆ Set.range (a *ᵥ ·) := by
  rintro - ⟨x, rfl⟩
  exact ⟨v *ᵥ x, Matrix.mulVec_mulVec x a v⟩

/-- A unimodular factor does not change the lattice that the columns span. -/
theorem range_mulVec_mul {a v : Matrix (Fin n) (Fin n) ℤ} (hv : IsUnit v.det) :
    Set.range ((a * v) *ᵥ ·) = Set.range (a *ᵥ ·) := by
  refine Set.Subset.antisymm (range_mulVec_mul_subset a v) ?_
  have hback : a * v * v⁻¹ = a := by rw [Matrix.mul_assoc, mul_nonsing_inv _ hv, Matrix.mul_one]
  calc Set.range (a *ᵥ ·) = Set.range ((a * v * v⁻¹) *ᵥ ·) := by rw [hback]
    _ ⊆ Set.range ((a * v) *ᵥ ·) := range_mulVec_mul_subset (a * v) v⁻¹

/-- Unimodular column operations do not change the lattice that the columns span. -/
theorem Represents.range_mulVec (h : f.Represents M) :
    Set.range (M *ᵥ ·) = Set.range (f.triangular.toMatrix n n *ᵥ ·) := by
  rw [h.product, range_mulVec_mul h.unit]

/-- The Hermite normal form exists for every square matrix, singular ones included, and for no
other. The diagonal of the form of a non-singular matrix is positive and multiplies to the
magnitude of the determinant. -/
theorem ofMatrix_isFormOf (m : IntMatrix) :
    (m.rows ≠ m.cols → ofMatrix m = .error (.nonSquare m.rows m.cols)) ∧
      (m.rows = m.cols → ∃ f, ofMatrix m = .ok f ∧ f.IsFormOf m ∧
        ((m.toMatrix m.rows m.rows).det ≠ 0 →
          (∀ i < m.rows, 0 < f.triangular.entry i i) ∧
            f.diagonal.prod = |(m.toMatrix m.rows m.rows).det|)) := by
  refine ⟨fun hne => ?_, fun hsquare => ?_⟩
  · rw [ofMatrix, if_neg (by simpa [isSquare] using hne)]
  · obtain ⟨f, hok, hrep, hcleared, hreduced⟩ := ofMatrix_eq_ok rfl hsquare.symm
    refine ⟨f, hok, hrep.isFormOf rfl hsquare.symm hcleared hreduced, fun hdet => ?_⟩
    exact ⟨fun i hi => hrep.diagonal_pos hcleared hdet hi, hrep.prod_diagonal hcleared⟩

/-- A lattice of index 6, and a matrix that is not square. -/
theorem ofMatrix_index_six :
    (∃ f, ofMatrix ⟨2, 2, #v[#v[3, 2], #v[3, 4]]⟩ = .ok f ∧
      f.IsFormOf ⟨2, 2, #v[#v[3, 2], #v[3, 4]]⟩ ∧ f.diagonal.prod = 6) ∧
    ofMatrix ⟨1, 2, #v[#v[3, 2]]⟩ = .error (.nonSquare 1 2) := by
  have hdet : (DenseMatrix.toMatrix (⟨2, 2, #v[#v[3, 2], #v[3, 4]]⟩ : IntMatrix) 2 2).det = 6 := by
    rw [det_fin_two]
    rfl
  obtain ⟨f, hok, hform, hfull⟩ := (ofMatrix_isFormOf ⟨2, 2, #v[#v[3, 2], #v[3, 4]]⟩).2 rfl
  obtain ⟨-, hprod⟩ := hfull (hdet ▸ by decide)
  refine ⟨⟨f, hok, hform, ?_⟩, (ofMatrix_isFormOf ⟨1, 2, #v[#v[3, 2]]⟩).1 (by decide)⟩
  exact hprod.trans (congrArg abs hdet)

end AffineLoops.HermiteForm
