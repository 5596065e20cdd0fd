import AffineLoops.Lattice.Steps
import AffineLoops.Proofs.Lattice.Canonical
import AffineLoops.Proofs.Transform.WellFormed
/-!
# The lattice of a planar transform

The images of the integer points of the plane are the combinations of the two vectors that the
steps of the transform stand for. With that a point of the lattice is found by its outer coordinate,
a whole number of outer strides, and the residue class of its inner coordinate.

## Main definitions

- `LatticeSteps.Spans` — the points of the lattice
- `LatticeSteps.spans_iff` — membership as two divisibilities
- `LatticeSteps.ofTransform_eq_hermite` — the steps are entries of the Hermite normal form
- `LatticeSteps.ofTransform_eq_ok` — the lattice of a transform is its image
-/

namespace AffineLoops.LatticeSteps

open Matrix DenseMatrix

variable {s : LatticeSteps} {t : Transform} {i j : ℤ}

/-- The point is a combination of `(outerStep, residue)` and `(0, innerStep)`. -/
def Spans (s : LatticeSteps) (i j : ℤ) : Prop :=
  ∃ k m : ℤ, i = s.outerStep * k ∧ j = s.residue * k + s.innerStep * m

/-- The outer coordinate decides which residue class the inner one has to be in. -/
theorem spans_iff (h : s.outerStep ≠ 0) :
    s.Spans i j ↔ s.outerStep ∣ i ∧ s.innerStep ∣ j - s.residue * (i / s.outerStep) := by
  constructor
  · rintro ⟨k, m, rfl, rfl⟩
    rw [Int.mul_ediv_cancel_left k h]
    exact ⟨Dvd.intro k rfl, m, by ring⟩
  · rintro ⟨⟨k, rfl⟩, m, hm⟩
    rw [Int.mul_ediv_cancel_left k h] at hm
    exact ⟨k, m, rfl, by omega⟩

/-- The columns of a matrix of the plane span the points that its rows give. -/
theorem mem_range_mulVec {a : Matrix (Fin 2) (Fin 2) ℤ} :
    ![i, j] ∈ Set.range (a *ᵥ ·) ↔
      ∃ x y, a 0 0 * x + a 0 1 * y = i ∧ a 1 0 * x + a 1 1 * y = j := by
  constructor
  · rintro ⟨v, hv⟩
    refine ⟨v 0, v 1, ?_, ?_⟩
    · have h0 := congrFun hv 0
      simpa [Matrix.mulVec, dotProduct, Fin.sum_univ_two] using h0
    · have h1 := congrFun hv 1
      simpa [Matrix.mulVec, dotProduct, Fin.sum_univ_two] using h1
  · rintro ⟨x, y, hi, hj⟩
    refine ⟨![x, y], ?_⟩
    funext k
    fin_cases k
    · simpa [Matrix.mulVec, dotProduct, Fin.sum_univ_two] using hi
    · simpa [Matrix.mulVec, dotProduct, Fin.sum_univ_two] using hj

/-- The steps of a planar transform are entries of the Hermite normal form. For a unimodular transform
the form is not computed, since its triangular matrix is the identity. -/
theorem ofTransform_eq_hermite (h : t.WellFormed) (hdim : t.dim = 2) :
    ∃ f, HermiteForm.ofMatrix t.matrix = .ok f ∧ f.Represents (t.matrix.toMatrix 2 2) ∧
      HermiteForm.IsReduced (f.triangular.toMatrix 2 2) ∧
      f.diagonal.prod = |(t.matrix.toMatrix 2 2).det| ∧
      ofTransform t = .ok ⟨f.triangular.entry 0 0, f.triangular.entry 1 0,
        f.triangular.entry 1 1⟩ := by
  have hdet : t.determinant = (t.matrix.toMatrix 2 2).det := hdim ▸ h.det_eq
  obtain ⟨f, hf, hrep, hred, hindex⟩ := HermiteForm.exists_ofMatrix (m := t.matrix) hdim
    (h.square.trans hdim) (hdet ▸ h.det_ne_zero)
  refine ⟨f, hf, hrep, hred, hindex, ?_⟩
  unfold ofTransform
  rw [if_neg (not_not_intro hdim)]
  by_cases hunit : t.isUnimodular
  · have habs : (t.matrix.toMatrix 2 2).det.natAbs = 1 := hdet ▸ beq_iff_eq.mp hunit
    rw [if_pos hunit, HermiteForm.triangular_eq_identity hrep hred (Int.isUnit_iff_natAbs_eq.mpr habs)]
    rfl
  · rw [if_neg hunit, hf]
    rfl

/-- The steps of a planar transform are positive and span the image of the plane. -/
theorem ofTransform_eq_ok (h : t.WellFormed) (hdim : t.dim = 2) :
    ∃ s, ofTransform t = .ok s ∧ 0 < s.outerStep ∧ 0 < s.innerStep ∧
      ∀ i j, s.Spans i j ↔ ∃ x y, t.matrix.entry 0 0 * x + t.matrix.entry 0 1 * y = i ∧
        t.matrix.entry 1 0 * x + t.matrix.entry 1 1 * y = j := by
  obtain ⟨f, -, hrep, hred, -, hok⟩ := ofTransform_eq_hermite h hdim
  refine ⟨_, hok, hred.diagonal_pos 0, hred.diagonal_pos 1, fun i j => ?_⟩
  have hupper : f.triangular.entry 0 1 = 0 := hred.lower_triangular 0 1 Fin.zero_lt_one
  have himage := Set.ext_iff.mp hrep.range_mulVec ![i, j]
  rw [mem_range_mulVec, mem_range_mulVec] at himage
  refine Iff.trans ?_ himage.symm
  simp only [toMatrix_apply, Fin.val_zero, Fin.val_one, hupper, zero_mul, add_zero]
  exact ⟨fun ⟨k, m, hi, hj⟩ => ⟨k, m, hi.symm, hj.symm⟩, fun ⟨k, m, hi, hj⟩ =>
    ⟨k, m, hi.symm, hj.symm⟩⟩

end AffineLoops.LatticeSteps
