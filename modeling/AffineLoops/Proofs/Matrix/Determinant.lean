import AffineLoops.Proofs.Matrix.Elimination
import Mathlib.LinearAlgebra.Matrix.Adjugate
/-!
# The determinant and the adjugate of integer matrices

The elimination runs over the rationals, but its determinant and the entries of its scaled inverse
are integers, since both are polynomials in the entries of the matrix. Reading them back as integers
loses nothing.

## Main definitions

- `IntMatrix.det_eq` — the computed determinant is the determinant
- `IntMatrix.adjugate?_eq_some` — the computed adjugate is the adjugate
-/

namespace AffineLoops

open Matrix

/-- An integer has no fractional part. -/
theorem truncate_intCast (z : ℤ) : truncate z = z := by
  simp [truncate]

namespace IntMatrix

open DenseMatrix

variable {m : IntMatrix} {n : ℕ}

theorem entry_toRat (m : IntMatrix) (i j : ℕ) : m.toRat.entry i j = (m.entry i j : ℚ) := by
  rw [toRat, entry, get?_map, entry]
  cases m.get? i j with
  | none => rfl
  | some x => rfl

theorem toMatrix_toRat (m : IntMatrix) (r c : ℕ) :
    m.toRat.toMatrix r c = (m.toMatrix r c).map (Int.castRingHom ℚ) := by
  ext i j
  exact entry_toRat m i j

theorem det_toRat (m : IntMatrix) (n : ℕ) :
    (m.toRat.toMatrix n n).det = ((m.toMatrix n n).det : ℚ) := by
  rw [toMatrix_toRat]
  exact ((Int.castRingHom ℚ).map_det (m.toMatrix n n)).symm

/-- The computed determinant of a square matrix is its determinant. -/
theorem det_eq (hr : m.rows = n) (hc : m.cols = n) : m.det = (m.toMatrix n n).det := by
  rw [det, hr]
  -- up to two rows there are closed formulas
  match n, hr, hc with
  | 0, _, _ => exact (Matrix.det_isEmpty).symm
  | 1, _, _ => rw [Matrix.det_fin_one, toMatrix_apply]; rfl
  | 2, _, _ => rw [Matrix.det_fin_two]; rfl
  | n + 3, hr, hc =>
    have hrat : eliminate m.toRat = ((m.toMatrix (n + 3) (n + 3)).det : ℚ) :=
      (eliminate_eq_det hr hc).trans (det_toRat m (n + 3))
    change truncate (eliminate m.toRat) = _
    rw [hrat, truncate_intCast]

theorem determinant?_eq_some (hr : m.rows = n) (hc : m.cols = n) :
    m.determinant? = some (m.toMatrix n n).det := by
  have hsquare : m.isSquare := beq_iff_eq.mpr (hr.trans hc.symm)
  rw [determinant?, if_pos hsquare, det_eq hr hc]

theorem determinant?_eq_none (h : m.rows ≠ m.cols) : m.determinant? = none := by
  have hsquare : ¬m.isSquare := fun hs => h (beq_iff_eq.mp hs)
  rw [determinant?, if_neg hsquare]

/-- The inverse of a non-singular matrix, times the determinant, is the adjugate. -/
theorem mul_det_eq_adjugate {a : Matrix (Fin n) (Fin n) ℤ} {e : Matrix (Fin n) (Fin n) ℚ}
    (h : e * a.map (Int.castRingHom ℚ) = 1) (i j : Fin n) :
    e i j * (a.det : ℚ) = (a.adjugate i j : ℚ) := by
  obtain ⟨b, hb⟩ : ∃ b, b = a.map (Int.castRingHom ℚ) := ⟨_, rfl⟩
  have hdet : b.det = (a.det : ℚ) := by
    rw [hb]
    exact ((Int.castRingHom ℚ).map_det a).symm
  have hadj : b.adjugate = a.adjugate.map (Int.castRingHom ℚ) := by
    rw [hb]
    exact ((Int.castRingHom ℚ).map_adjugate a).symm
  rw [← hb] at h
  have hscaled : b.adjugate = b.det • e :=
    calc b.adjugate = e * b * b.adjugate := by rw [h, Matrix.one_mul]
      _ = e * (b * b.adjugate) := Matrix.mul_assoc e b b.adjugate
      _ = b.det • e := by rw [mul_adjugate, Matrix.mul_smul, Matrix.mul_one]
  have hentry := congrFun (congrFun hscaled i) j
  rw [hadj, hdet, Matrix.smul_apply, smul_eq_mul] at hentry
  rw [mul_comm, ← hentry]
  rfl

/-- The scaled right half is read back as an integer matrix when all of it is one. -/
theorem scaledHalf?_eq_some {t : DenseMatrix ℚ} {d : ℤ} {b : Matrix (Fin n) (Fin n) ℤ}
    (hr : t.rows = n) (h : ∀ i j : Fin n, t.entry i (n + j) * (d : ℚ) = b i j) :
    ∃ c : IntMatrix, scaledHalf? t d = some c ∧ c.rows = n ∧ c.cols = n ∧ c.toMatrix n n = b := by
  refine ⟨_, if_pos ?_, hr, hr, ?_⟩
  · simp only [List.all_eq_true, List.mem_range, beq_iff_eq, hr]
    intro i hi j hj
    rw [h ⟨i, hi⟩ ⟨j, hj⟩, Rat.den_intCast]
  · ext i j
    rw [toMatrix_apply, entry_ofFn, if_pos ⟨hr ▸ i.2, hr ▸ j.2⟩, hr]
    change truncate (t.entry i (n + j) * (d : ℚ)) = b i j
    rw [h i j, truncate_intCast]

/-- The elimination finds the adjugate of every non-singular matrix. -/
theorem scaledHalf?_reduce? (hr : m.rows = n) (hdet : (m.toMatrix n n).det ≠ 0) :
    ∃ b : IntMatrix,
      (reduce? (augment m.toRat)).bind (scaledHalf? · (m.toMatrix n n).det) = some b ∧
        b.rows = n ∧ b.cols = n ∧ b.toMatrix n n = (m.toMatrix n n).adjugate := by
  have hrat : (m.toRat.toMatrix n n).det ≠ 0 := by
    rw [det_toRat]
    exact Int.cast_ne_zero.mpr hdet
  obtain ⟨t, ht, hrows, e, he, hright⟩ := reduce?_augment (m := m.toRat) hr hrat
  rw [toMatrix_toRat] at he
  obtain ⟨b, hb, hbr, hbc, hview⟩ := scaledHalf?_eq_some hrows fun i j =>
    (congrArg (· * _) (hright i j)).trans (mul_det_eq_adjugate he i j)
  exact ⟨b, by rw [ht, Option.bind_some, hb], hbr, hbc, hview⟩

/-- Every non-singular matrix has the adjugate computed. -/
theorem adjugate?_eq_some (hr : m.rows = n) (hc : m.cols = n) (hdet : (m.toMatrix n n).det ≠ 0) :
    ∃ b : IntMatrix, m.adjugate? = some b ∧ b.rows = n ∧ b.cols = n ∧
      b.toMatrix n n = (m.toMatrix n n).adjugate := by
  by_cases htwo : n = 2
  · -- the adjugate of two rows is written down entry by entry, without an elimination
    subst htwo
    obtain ⟨b, hb⟩ : ∃ b : IntMatrix, b = ofFn 2 2 fun i j =>
        if i = j then m.entry (1 - i) (1 - j) else -m.entry i j := ⟨_, rfl⟩
    refine ⟨b, ?_, congrArg rows hb, congrArg cols hb, ?_⟩
    · rw [adjugate?, determinant?_eq_some hr hc, Option.bind_eq_bind, Option.bind_some,
        if_neg hdet, if_pos hr, hb]
    · rw [adjugate_fin_two, hb]
      ext i j
      fin_cases i <;> fin_cases j <;> rfl
  · obtain ⟨b, hb, hsize⟩ := scaledHalf?_reduce? hr hdet
    refine ⟨b, ?_, hsize⟩
    rw [adjugate?, determinant?_eq_some hr hc, Option.bind_eq_bind, Option.bind_some,
      if_neg hdet, if_neg (by omega), Option.bind_eq_bind, hb]

theorem adjugate?_eq_none (h : ∀ d, m.determinant? = some d → d = 0) : m.adjugate? = none := by
  rw [adjugate?]
  cases hd : m.determinant? with
  | none => rfl
  | some d => rw [Option.bind_eq_bind, Option.bind_some, if_pos (h d hd)]

end IntMatrix

end AffineLoops
