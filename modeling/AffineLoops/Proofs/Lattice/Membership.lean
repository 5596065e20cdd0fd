import AffineLoops.Proofs.Lattice.Steps
import AffineLoops.Proofs.Transform.Inverse
/-!
# Membership in a planar lattice

Whether a pair of loop values is the image of an iteration can be asked in two ways. The steps of the
lattice answer with two remainders, the inverse map with the division by the determinant. Both
answers are exact, so they agree, for loop values and determinants of either sign.

## Main definitions

- `LatticeSteps.contains_eq_ok` — the test by remainders
- `Transform.WellFormed.image_iff_inverse` — the test by the inverse map
- `LatticeSteps.ofTransform_agrees` — the steps, the Hermite normal form and the inverse map
-/

namespace AffineLoops

open DenseMatrix

/-- With steps that are not zero the test always answers, and tells the points of the lattice from
the others. -/
theorem LatticeSteps.contains_eq_ok {s : LatticeSteps} (houter : s.outerStep ≠ 0)
    (hinner : s.innerStep ≠ 0) (i j : ℤ) : ∃ b, s.contains i j = .ok b ∧ (b ↔ s.Spans i j) := by
  rw [contains, if_neg houter]
  by_cases hdvd : s.outerStep ∣ i
  · have hrem : i.tmod s.outerStep = 0 := Int.tmod_eq_zero_of_dvd hdvd
    rw [if_neg (not_not_intro hrem), if_neg hinner]
    refine ⟨_, rfl, ?_⟩
    -- the division is exact, so its rounding does not matter
    rw [beq_iff_eq, ← Int.dvd_iff_tmod_eq_zero, spans_iff houter, Int.tdiv_eq_ediv_of_dvd hdvd]
    exact (and_iff_right hdvd).symm
  · have hrem : i.tmod s.outerStep ≠ 0 := fun h0 => hdvd (Int.dvd_of_tmod_eq_zero h0)
    rw [if_pos hrem]
    exact ⟨false, rfl, iff_of_false Bool.false_ne_true fun h => hdvd ((spans_iff houter).mp h).1⟩

namespace Transform

variable {t : Transform}

theorem WellFormed.exists_apply_planar (h : t.WellFormed) (hdim : t.dim = 2) (i j : ℤ) :
    (∃ p : Point, p.length = 2 ∧ t.apply p = [i, j]) ↔
      ∃ x y, t.matrix.entry 0 0 * x + t.matrix.entry 0 1 * y = i ∧
        t.matrix.entry 1 0 * x + t.matrix.entry 1 1 * y = j := by
  constructor
  · rintro ⟨p, hp, himage⟩
    obtain ⟨x, y, rfl⟩ := List.length_eq_two.mp hp
    rw [h.apply_planar hdim] at himage
    simp only [List.cons.injEq, and_true] at himage
    exact ⟨x, y, himage⟩
  · rintro ⟨x, y, rfl, rfl⟩
    exact ⟨[x, y], rfl, h.apply_planar hdim x y⟩

/-- The inverse map has an answer for the images of iterations, and only for these. -/
theorem WellFormed.image_iff_inverse (h : t.WellFormed) {q : Point} (hq : q.length = t.dim) :
    (∃ p : Point, p.length = t.dim ∧ t.apply p = q) ↔ ∃ p, t.inverse.apply q = .ok p :=
  exists_congr fun _ => (h.apply_inverse_eq_ok hq).symm

end Transform

/-- The steps of a non-singular planar transform are the entries of the Hermite normal form of its
matrix, whether this form is computed or not, and their product is the magnitude of the determinant.
For every pair of loop values the test by remainders has an answer. It is positive exactly if the
pair is the image of an iteration, and that is exactly if the inverse map finds one. -/
theorem LatticeSteps.ofTransform_agrees {t : Transform} (h : t.WellFormed) (hdim : t.dim = 2) :
    ∃ s f, ofTransform t = .ok s ∧ HermiteForm.ofMatrix t.matrix = .ok f ∧
      s = ⟨f.triangular.entry 0 0, f.triangular.entry 1 0, f.triangular.entry 1 1⟩ ∧
      s.index = |(t.matrix.toMatrix 2 2).det| ∧
      ∀ outer inner, ∃ b, s.contains outer inner = .ok b ∧
        (b ↔ ∃ p : Point, p.length = 2 ∧ t.apply p = [outer, inner]) ∧
        (b ↔ ∃ p, t.inverse.apply [outer, inner] = .ok p) := by
  obtain ⟨f, hf, hrep, -, hindex, hsteps⟩ := ofTransform_eq_hermite h hdim
  obtain ⟨s, hs, houter, hinner, hspans⟩ := ofTransform_eq_ok h hdim
  obtain rfl := Except.ok.inj (hsteps.symm.trans hs)
  refine ⟨_, f, hsteps, hf, rfl, ?_, fun i j => ?_⟩
  · rw [← hindex, HermiteForm.diagonal, hrep.triangular_rows]
    simp [index, List.range_succ]
  · obtain ⟨b, hb, hmem⟩ := contains_eq_ok houter.ne' hinner.ne' i j
    have himage : b ↔ ∃ p : Point, p.length = 2 ∧ t.apply p = [i, j] := by
      rw [hmem, hspans, h.exists_apply_planar hdim]
    refine ⟨b, hb, himage, ?_⟩
    rw [himage, ← hdim]
    exact h.image_iff_inverse hdim.symm

/-- A lattice of index 2 from a negative determinant, and two pairs with a negative outer value. -/
theorem LatticeSteps.ofTransform_agrees_index_two :
    ∃ s, ofTransform ⟨⟨2, 2, #v[#v[1, 1], #v[1, -1]]⟩, -2⟩ = .ok s ∧ s.index = 2 ∧
      s.contains (-3) 1 = .ok true ∧ s.contains (-3) 2 = .ok false := by
  have hmade : Transform.Constructed ⟨⟨2, 2, #v[#v[1, 1], #v[1, -1]]⟩, -2⟩ :=
    .ofMatrix (m := ⟨2, 2, #v[#v[1, 1], #v[1, -1]]⟩) (by decide)
  obtain ⟨s, -, hs, -, -, hindex, hcontains⟩ := ofTransform_agrees hmade.wellFormed rfl
  refine ⟨s, hs, ?_, ?_, ?_⟩
  · rw [hindex, Matrix.det_fin_two]
    rfl
  · obtain ⟨b, hb, himage, -⟩ := hcontains (-3) 1
    rw [hb, himage.mpr ⟨[-1, -2], rfl, by decide⟩]
  · obtain ⟨b, hb, -, hinverse⟩ := hcontains (-3) 2
    have hnone : ¬b := fun h => by
      obtain ⟨p, hp⟩ := hinverse.mp h
      cases hp
    rw [hb, Bool.eq_false_iff.mpr hnone]

end AffineLoops
