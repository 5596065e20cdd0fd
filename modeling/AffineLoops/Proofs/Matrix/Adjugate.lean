import AffineLoops.Proofs.Matrix.Determinant
/-!
# The determinant and the adjugate in every dimension

The determinant of a square matrix is the sum over all permutations of its rows, and the adjugate
is what multiplies with the matrix, from either side, to the determinant times the identity. The
closed formulas for small matrices and the eliminations compute the same two things, and the
elimination with the identity appended runs out of pivots exactly on singular matrices.

## Main definitions

- `IntMatrix.leibniz` — the sum over the permutations
- `IntMatrix.scalar` — a multiple of the identity
- `IntMatrix.determinant_adjugate_exact` — what is computed, for square matrices and others
-/

namespace AffineLoops.IntMatrix

open Matrix DenseMatrix

variable {m b : IntMatrix} {n : ℕ}

/-- The determinant of the first `n` rows and columns: one product of entries for every permutation
of the rows, with the sign of the permutation. -/
def leibniz (m : IntMatrix) (n : ℕ) : ℤ :=
  ∑ σ : Equiv.Perm (Fin n), (Equiv.Perm.sign σ : ℤ) * ∏ i : Fin n, m.entry (σ i) i

theorem leibniz_eq_det (m : IntMatrix) (n : ℕ) : m.leibniz n = (m.toMatrix n n).det :=
  (Matrix.det_apply' (m.toMatrix n n)).symm

/-- The identity on `n` axes times a number. -/
def scalar (n : ℕ) (x : ℤ) : IntMatrix :=
  ofFn n n fun i j => if i = j then x else 0

theorem toMatrix_scalar (n : ℕ) (x : ℤ) : (scalar n x).toMatrix n n = x • 1 := by
  ext i j
  rw [toMatrix_apply, scalar, entry_ofFn, if_pos ⟨i.2, j.2⟩, Matrix.smul_apply, Matrix.one_apply]
  simp [Fin.ext_iff]

/-- A matrix of one size with the adjugate multiplies to the determinant, on both sides. -/
theorem mul?_adjugate (hr : m.rows = n) (hc : m.cols = n) (hbr : b.rows = n) (hbc : b.cols = n)
    (hview : b.toMatrix n n = (m.toMatrix n n).adjugate) :
    m.mul? b = some (scalar n (m.leibniz n)) ∧ b.mul? m = some (scalar n (m.leibniz n)) := by
  constructor
  · rw [mul?_eq_some hr hc hbr hbc rfl rfl, toMatrix_scalar, hview, mul_adjugate, leibniz_eq_det]
  · rw [mul?_eq_some hbr hbc hr hc rfl rfl, toMatrix_scalar, hview, adjugate_mul, leibniz_eq_det]

theorem eliminate_toRat (hr : m.rows = n) (hc : m.cols = n) :
    eliminate m.toRat = (m.leibniz n : ℚ) := by
  have hrat : eliminate m.toRat = (m.toRat.toMatrix n n).det := eliminate_eq_det hr hc
  rw [hrat, det_toRat, leibniz_eq_det]

/-- The elimination decides whether there is an adjugate, and computes it, also where a closed
formula is used instead. -/
theorem adjugate?_eq_reduce? (hr : m.rows = n) (hc : m.cols = n) :
    m.adjugate? = (reduce? (augment m.toRat)).bind (scaledHalf? · (m.leibniz n)) := by
  rw [leibniz_eq_det]
  by_cases hdet : (m.toMatrix n n).det = 0
  · have hrat : (m.toRat.toMatrix n n).det = 0 := by
      rw [det_toRat, hdet, Int.cast_zero]
    have hpivots : reduce? (augment m.toRat) = none := reduce?_augment_eq_none hr hrat
    rw [hpivots, Option.bind_none]
    refine adjugate?_eq_none fun d hd => ?_
    rw [determinant?_eq_some hr hc, Option.some_inj] at hd
    exact hd.symm.trans hdet
  · obtain ⟨b, hb, hbr, hbc, hview⟩ := adjugate?_eq_some hr hc hdet
    obtain ⟨c, hc', hcr, hcc, hview'⟩ := scaledHalf?_reduce? hr hdet
    rw [hb, hc', toMatrix_inj hbr hbc hcr hcc (hview.trans hview'.symm)]

/-- The determinant of every square matrix is computed, and it is the sum over the permutations. The
adjugate is computed exactly if the determinant is not zero, and multiplies with the matrix to the
determinant on both sides. The eliminations would give the same for matrices of all sizes, and other
than square matrices have neither. -/
theorem determinant_adjugate_exact (m : IntMatrix) :
    (m.rows = m.cols →
      m.determinant? = some (m.leibniz m.rows) ∧
      ((∃ b, m.adjugate? = some b) ↔ m.leibniz m.rows ≠ 0) ∧
      (∀ b, m.adjugate? = some b →
        m.mul? b = some (scalar m.rows (m.leibniz m.rows)) ∧
          b.mul? m = some (scalar m.rows (m.leibniz m.rows))) ∧
      eliminate m.toRat = (m.leibniz m.rows : ℚ) ∧
      (reduce? (augment m.toRat)).bind (scaledHalf? · (m.leibniz m.rows)) = m.adjugate?) ∧
    (m.rows ≠ m.cols → m.determinant? = none ∧ m.adjugate? = none) := by
  constructor
  · intro hsquare
    have hdet : m.determinant? = some (m.leibniz m.rows) := by
      rw [determinant?_eq_some rfl hsquare.symm, leibniz_eq_det]
    have hsome : m.leibniz m.rows ≠ 0 → ∃ b : IntMatrix, m.adjugate? = some b ∧ b.rows = m.rows ∧
        b.cols = m.rows ∧ b.toMatrix m.rows m.rows = (m.toMatrix m.rows m.rows).adjugate := by
      rw [leibniz_eq_det]
      exact adjugate?_eq_some rfl hsquare.symm
    have hnone : m.leibniz m.rows = 0 → m.adjugate? = none := fun hzero =>
      adjugate?_eq_none fun d hd => (Option.some_inj.mp (hdet.symm.trans hd)).symm.trans hzero
    have hne : ∀ b, m.adjugate? = some b → m.leibniz m.rows ≠ 0 := fun b hb hzero =>
      Option.some_ne_none b (hb.symm.trans (hnone hzero))
    refine ⟨hdet, ⟨fun ⟨b, hb⟩ => hne b hb, fun h => ?_⟩, fun b hb => ?_,
      eliminate_toRat rfl hsquare.symm, (adjugate?_eq_reduce? rfl hsquare.symm).symm⟩
    · obtain ⟨b, hb, -⟩ := hsome h
      exact ⟨b, hb⟩
    · obtain ⟨c, hc, hcr, hcc, hview⟩ := hsome (hne b hb)
      cases hc.symm.trans hb
      exact mul?_adjugate rfl hsquare.symm hcr hcc hview
  · intro hsquare
    have hdet : m.determinant? = none := determinant?_eq_none hsquare
    refine ⟨hdet, adjugate?_eq_none fun d hd => ?_⟩
    cases hdet.symm.trans hd

/-- A matrix that needs an exchange of rows, a singular one, the one without entries and one that is
not square. -/
theorem determinant_adjugate_exact_sizes :
    (determinant? ⟨3, 3, #v[#v[0, 2, 1], #v[1, 3, 2], #v[2, 1, 6]]⟩ = some (-9) ∧
      ∃ b, adjugate? ⟨3, 3, #v[#v[0, 2, 1], #v[1, 3, 2], #v[2, 1, 6]]⟩ = some b ∧
        b.mul? ⟨3, 3, #v[#v[0, 2, 1], #v[1, 3, 2], #v[2, 1, 6]]⟩ = some (scalar 3 (-9))) ∧
    (¬∃ b, adjugate? ⟨2, 2, #v[#v[1, 2], #v[2, 4]]⟩ = some b) ∧
    (∃ b, adjugate? ⟨0, 0, #v[]⟩ = some b) ∧
    adjugate? ⟨1, 2, #v[#v[1, 2]]⟩ = none := by
  have hthree : leibniz ⟨3, 3, #v[#v[0, 2, 1], #v[1, 3, 2], #v[2, 1, 6]]⟩ 3 = -9 := by
    rw [leibniz_eq_det, det_fin_three]
    decide
  have htwo : leibniz ⟨2, 2, #v[#v[1, 2], #v[2, 4]]⟩ 2 = 0 := by
    rw [leibniz_eq_det, det_fin_two]
    decide
  have hempty : leibniz ⟨0, 0, #v[]⟩ 0 = 1 := by
    rw [leibniz_eq_det, det_isEmpty]
  obtain ⟨hdet, hsome, hmul, -⟩ :=
    (determinant_adjugate_exact ⟨3, 3, #v[#v[0, 2, 1], #v[1, 3, 2], #v[2, 1, 6]]⟩).1 rfl
  obtain ⟨b, hb⟩ := hsome.mpr (hthree ▸ by decide)
  refine ⟨⟨hdet.trans (congrArg some hthree), b, hb, ?_⟩, fun hex => ?_, ?_, ?_⟩
  · exact (hmul b hb).2.trans (congrArg (some <| scalar 3 ·) hthree)
  · exact ((determinant_adjugate_exact ⟨2, 2, #v[#v[1, 2], #v[2, 4]]⟩).1 rfl).2.1.mp hex htwo
  · exact ((determinant_adjugate_exact ⟨0, 0, #v[]⟩).1 rfl).2.1.mpr (hempty ▸ one_ne_zero)
  · exact ((determinant_adjugate_exact ⟨1, 2, #v[#v[1, 2]]⟩).2 (by decide)).2

end AffineLoops.IntMatrix
