import AffineLoops.Proofs.Except
import AffineLoops.Proofs.Transform.WellFormed
import AffineLoops.Transform.Inverse
/-!
# Exactness of inverse maps

A tuple of loop values is the image of an iteration exactly if the determinant divides every
coordinate of its product with the adjugate, and the iteration is then the quotient. So the inverse
map of a well-formed transform answers for every tuple which iteration it stands for, or that it
stands for none.

## Main definitions

- `InverseMap.mapM_divide_eq_ok` — the division of all coordinates, when it succeeds
- `Transform.WellFormed.inverse_eq` — the map is the adjugate over the determinant
- `Transform.inverse_identity` — the identity is its own inverse
- `Transform.WellFormed.apply_inverse_eq_ok` — the map inverts the transform
-/

namespace AffineLoops

open Matrix IntMatrix DenseMatrix

namespace InverseMap

variable {f : InverseMap} {q : Point}

theorem divide_eq_ok (h : f.divisor ≠ 0) {s x : ℤ} :
    f.divide q s = .ok x ↔ f.divisor * x = s := by
  rw [divide, if_neg h]
  split
  · next hzero =>
    have hdvd : f.divisor ∣ s := Int.dvd_of_tmod_eq_zero hzero
    rw [Except.ok.injEq]
    constructor
    · rintro rfl
      exact Int.mul_tdiv_cancel' hdvd
    · rintro rfl
      exact Int.mul_tdiv_cancel_left x h
  · next hrem =>
    constructor
    · intro hok
      cases hok
    · rintro rfl
      exact absurd (Int.mul_tmod_right f.divisor x) hrem

/-- A coordinate that is not divided exactly is reported with the divisor. -/
theorem divide_eq_error (h : f.divisor ≠ 0) {s : ℤ} {e : Error} (herr : f.divide q s = .error e) :
    e = .derivation (.offLattice q s f.divisor) := by
  rw [divide, if_neg h] at herr
  split at herr
  · cases herr
  · cases herr
    rfl

theorem mapM_divide_eq_ok (h : f.divisor ≠ 0) {scaled p : List ℤ} :
    scaled.mapM (f.divide q) = .ok p ↔ p.map (f.divisor * ·) = scaled := by
  induction scaled generalizing p with
  | nil =>
    rw [List.mapM_nil, List.map_eq_nil_iff]
    exact ⟨fun hp => by cases hp; rfl, fun hp => by rw [hp]; rfl⟩
  | cons s scaled ih =>
    rw [List.mapM_cons]
    constructor
    · intro hok
      obtain ⟨x, hx, hok⟩ := Except.bind_eq_ok.mp hok
      obtain ⟨r, hr, hok⟩ := Except.bind_eq_ok.mp hok
      cases hok
      rw [List.map_cons, (divide_eq_ok h).mp hx, ih.mp hr]
    · intro hp
      cases p with
      | nil => cases hp
      | cons x r =>
        obtain ⟨hx, hr⟩ := List.cons_eq_cons.mp hp
        rw [(divide_eq_ok h).mpr hx, ih.mpr hr]
        rfl

/-- The only failure of the division is a coordinate with a remainder. -/
theorem mapM_divide_eq_error (h : f.divisor ≠ 0) {scaled : List ℤ} {e : Error}
    (herr : scaled.mapM (f.divide q) = .error e) :
    ∃ s ∈ scaled, e = .derivation (.offLattice q s f.divisor) := by
  induction scaled with
  | nil => cases herr
  | cons s scaled ih =>
    rw [List.mapM_cons] at herr
    rcases Except.bind_eq_error.mp herr with hx | ⟨x, -, hrest⟩
    · exact ⟨s, List.mem_cons_self, divide_eq_error h hx⟩
    · rcases Except.bind_eq_error.mp hrest with hr | ⟨r, -, hpure⟩
      · obtain ⟨s', hmem, he⟩ := ih hr
        exact ⟨s', List.mem_cons_of_mem s hmem, he⟩
      · cases hpure

end InverseMap

/-- Solving with the adjugate: the image of `p` is `q` if the adjugate takes `q` to the determinant
times `p`. -/
theorem adjugate_mulVec_eq_iff {n : ℕ} {a : Matrix (Fin n) (Fin n) ℤ} (h : a.det ≠ 0)
    {p q : Fin n → ℤ} : a.det • p = a.adjugate *ᵥ q ↔ a *ᵥ p = q := by
  constructor
  · intro hp
    have hscaled : a.det • (a *ᵥ p) = a.det • q := by
      rw [← Matrix.mulVec_smul, hp, Matrix.mulVec_mulVec, mul_adjugate, Matrix.smul_mulVec,
        Matrix.one_mulVec]
    exact smul_right_injective (Fin n → ℤ) h hscaled
  · rintro rfl
    rw [Matrix.mulVec_mulVec, adjugate_mul, Matrix.smul_mulVec, Matrix.one_mulVec]

namespace Transform

variable {t : Transform} {q : Point}

/-- The adjugate of a well-formed transform exists, so the inverse map is made of it. -/
theorem WellFormed.inverse_eq (h : t.WellFormed) :
    ∃ b : IntMatrix, t.matrix.adjugate? = some b ∧ t.inverse = ⟨b, t.determinant⟩ ∧
      b.rows = t.dim ∧ b.cols = t.dim ∧
        b.toMatrix t.dim t.dim = (t.matrix.toMatrix t.dim t.dim).adjugate := by
  have hdet : (t.matrix.toMatrix t.dim t.dim).det ≠ 0 := h.det_eq ▸ h.det_ne_zero
  obtain ⟨b, hb, hr, hc, hview⟩ := adjugate?_eq_some rfl h.square hdet
  refine ⟨b, hb, ?_, hr, hc, hview⟩
  rw [inverse, hb, Option.getD_some]

/-- The adjugate of the identity is the identity. -/
theorem inverse_identity (n : ℕ) : (identity n).inverse = .identity n := by
  obtain ⟨b, -, hinv, hr, hc, hview⟩ := (identity_wellFormed n).inverse_eq
  have hb : b = IntMatrix.identity n := by
    refine toMatrix_inj hr hc rfl rfl (hview.trans ?_)
    change ((IntMatrix.identity n).toMatrix n n).adjugate = (IntMatrix.identity n).toMatrix n n
    rw [toMatrix_identity, Matrix.adjugate_one]
  rw [hinv, hb]
  rfl

/-- The inverse map divides the product of the loop values with the adjugate. -/
theorem WellFormed.apply_inverse (h : t.WellFormed) (hq : q.length = t.dim) :
    t.inverse.apply q =
      (List.ofFn ((t.matrix.toMatrix t.dim t.dim).adjugate *ᵥ q.toVec t.dim)).mapM
        (t.inverse.divide q) := by
  obtain ⟨b, -, hinv, hr, hc, hview⟩ := h.inverse_eq
  rw [InverseMap.apply, hinv]
  simp only [mulVec?_eq_some hr hc hq, hview]

/-- The inverse map takes the image of an iteration back to it, and gives nothing else. -/
theorem WellFormed.apply_inverse_eq_ok (h : t.WellFormed) (hq : q.length = t.dim) {p : Point} :
    t.inverse.apply q = .ok p ↔ p.length = t.dim ∧ t.apply p = q := by
  have hdiv : t.inverse.divisor ≠ 0 := h.det_ne_zero
  have hdet : t.inverse.divisor = (t.matrix.toMatrix t.dim t.dim).det := h.det_eq
  rw [h.apply_inverse hq, InverseMap.mapM_divide_eq_ok hdiv, hdet]
  rw [hdet] at hdiv
  constructor
  · intro hp
    have hlen : p.length = t.dim := by simpa using congrArg List.length hp
    rw [← Point.ofFn_toVec hlen, List.map_ofFn, List.ofFn_inj] at hp
    have hvec := (adjugate_mulVec_eq_iff hdiv).mp hp
    exact ⟨hlen, by rw [h.apply_eq rfl hlen, hvec, Point.ofFn_toVec hq]⟩
  · rintro ⟨hlen, himage⟩
    rw [h.apply_eq rfl hlen] at himage
    have hvec : t.matrix.toMatrix t.dim t.dim *ᵥ p.toVec t.dim = q.toVec t.dim := by
      rw [← himage, Point.toVec_ofFn]
    rw [← adjugate_mulVec_eq_iff hdiv] at hvec
    rw [← hvec]
    conv_lhs => rw [← Point.ofFn_toVec hlen, List.map_ofFn]
    rfl

/-- The inverse map fails with a coordinate that the determinant does not divide. -/
theorem WellFormed.apply_inverse_eq_error (h : t.WellFormed) (hq : q.length = t.dim) {e : Error}
    (herr : t.inverse.apply q = .error e) :
    ∃ s, e = .derivation (.offLattice q s t.determinant) := by
  have hdiv : t.inverse.divisor ≠ 0 := h.det_ne_zero
  rw [h.apply_inverse hq] at herr
  obtain ⟨s, -, he⟩ := InverseMap.mapM_divide_eq_error hdiv herr
  exact ⟨s, he⟩

/-- The inverse map of every constructed transform is exact. It takes the image of an iteration, and
no other tuple, to that iteration. A tuple that is the image of no iteration, and no other, makes it
fail, as a mismatch between the bounds and the domain. The adjugate always exists, so the identity
never stands in for it. -/
theorem inverse_exact (h : t.Constructed) (hq : q.length = t.dim) :
    (∃ b, t.matrix.adjugate? = some b ∧ t.inverse = ⟨b, t.determinant⟩) ∧
      (∀ p, t.inverse.apply q = .ok p ↔ p.length = t.dim ∧ t.apply p = q) ∧
        ((∃ e, t.inverse.apply q = .error e ∧ e.derivationKind? = some .boundsMismatch) ↔
          ¬∃ p : Point, p.length = t.dim ∧ t.apply p = q) := by
  have hwf := h.wellFormed
  obtain ⟨b, hb, hinv, -⟩ := hwf.inverse_eq
  refine ⟨⟨b, hb, hinv⟩, fun p => hwf.apply_inverse_eq_ok hq, ?_⟩
  constructor
  · rintro ⟨e, he, -⟩ ⟨p, hp⟩
    rw [(hwf.apply_inverse_eq_ok hq).mpr hp] at he
    cases he
  · intro hnone
    cases hres : t.inverse.apply q with
    | ok p => exact absurd ⟨p, (hwf.apply_inverse_eq_ok hq).mp hres⟩ hnone
    | error e =>
      obtain ⟨s, rfl⟩ := hwf.apply_inverse_eq_error hq hres
      exact ⟨_, rfl, rfl⟩

/-- A dense tuple and one between the points of a lattice of index 2. -/
theorem inverse_exact_index_two :
    (∀ p, (Transform.inverse ⟨⟨2, 2, #v[#v[1, 1], #v[1, -1]]⟩, -2⟩).apply [3, 1] = .ok p ↔
      p.length = 2 ∧ Transform.apply ⟨⟨2, 2, #v[#v[1, 1], #v[1, -1]]⟩, -2⟩ p = [3, 1]) ∧
    ∃ e, (Transform.inverse ⟨⟨2, 2, #v[#v[1, 1], #v[1, -1]]⟩, -2⟩).apply [3, 2] = .error e ∧
      e.derivationKind? = some .boundsMismatch := by
  have hmade : Constructed ⟨⟨2, 2, #v[#v[1, 1], #v[1, -1]]⟩, -2⟩ :=
    .ofMatrix (m := ⟨2, 2, #v[#v[1, 1], #v[1, -1]]⟩) (by decide)
  refine ⟨(inverse_exact hmade rfl).2.1, (inverse_exact hmade rfl).2.2.mpr ?_⟩
  rintro ⟨p, hp⟩
  cases ((inverse_exact hmade rfl).2.1 p).mpr hp

end Transform

end AffineLoops
