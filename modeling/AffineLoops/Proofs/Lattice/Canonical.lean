import AffineLoops.Proofs.Lattice.Diagonal
import AffineLoops.Proofs.Lattice.Hermite
/-!
# Canonicity of the Hermite normal form

A lattice of full rank has only one basis that is lower triangular with a positive diagonal and
reduced rows: two such bases agree row by row from the top down, since the diagonal entries of a row
divide each other and the entries left of them are residues modulo the diagonal entry. So the
triangular matrix of the normal form names the lattice that the columns span, whatever turns the
algorithm took, and a matrix that is such a basis already is left alone.

## Main definitions

- `HermiteForm.IsReduced` — the triangular bases that the algorithm ends with
- `HermiteForm.range_mulVec_eq_iff` — equal lattices and unimodular factors
- `HermiteForm.IsReduced.unique` — a lattice has one such basis
- `HermiteForm.ofMatrix_of_isReduced` — the algorithm keeps such a basis
- `HermiteForm.ofMatrix_canonical` — the form decides whether two lattices are equal
-/

namespace AffineLoops

open Matrix DenseMatrix IntMatrix

namespace HermiteForm

variable {n : ℕ} {a b v w : Matrix (Fin n) (Fin n) ℤ}

/-! ### Lattices and their bases -/

/-- A basis of a smaller lattice consists of combinations of the columns. -/
theorem exists_eq_mul (h : Set.range (a *ᵥ ·) ⊆ Set.range (b *ᵥ ·)) : ∃ w, a = b * w := by
  have hcol : ∀ j, ∃ x, b *ᵥ x = a *ᵥ Pi.single j 1 := fun j => h ⟨Pi.single j 1, rfl⟩
  choose x hx using hcol
  refine ⟨Matrix.of fun i j => x j i, ?_⟩
  ext i j
  have hentry := congrFun (hx j) i
  rw [Matrix.mulVec_single_one] at hentry
  exact hentry.symm

/-- Two bases span the same lattice of full rank exactly if a unimodular matrix takes one to the
other. -/
theorem range_mulVec_eq_iff (hdet : a.det ≠ 0) :
    Set.range (a *ᵥ ·) = Set.range (b *ᵥ ·) ↔ ∃ v, IsUnit v.det ∧ a * v = b := by
  constructor
  · intro h
    obtain ⟨v, hv⟩ := exists_eq_mul h.ge
    obtain ⟨w, hw⟩ := exists_eq_mul h.le
    refine ⟨v, IsUnit.of_mul_eq_one w.det (mul_left_cancel₀ hdet ?_), hv.symm⟩
    calc a.det * (v.det * w.det) = (a * v * w).det := by rw [det_mul, det_mul, mul_assoc]
      _ = a.det * 1 := by rw [← hv, ← hw, mul_one]
  · rintro ⟨v, hv, rfl⟩
    exact (range_mulVec_mul hv).symm

/-! ### Uniqueness -/

/-- A lower triangular matrix with a positive diagonal, in which the entries left of the diagonal
are residues modulo the diagonal entry of their row. -/
structure IsReduced (a : Matrix (Fin n) (Fin n) ℤ) : Prop where
  lower_triangular : ∀ i j, i < j → a i j = 0
  diagonal_pos : ∀ i, 0 < a i i
  reduced : ∀ i j, j < i → 0 ≤ a i j ∧ a i j < a i i

theorem IsReduced.det_ne_zero (h : IsReduced a) : a.det ≠ 0 := by
  have hlower : a.IsLowerTriangular := fun i j hij =>
    h.lower_triangular i j (OrderDual.toDual_lt_toDual.mp hij)
  rw [det_of_isLowerTriangular _ hlower]
  exact Finset.prod_ne_zero_iff.mpr fun i _ => (h.diagonal_pos i).ne'

/-- The first row in which two bases of a lattice can differ: they differ by multiples of the
diagonal entry there. -/
theorem IsReduced.apply_mul (hb : IsReduced b) {i : Fin n} (hab : a = b * w)
    (habove : ∀ k < i, ∀ j, (w - 1) k j = 0) (j : Fin n) :
    a i j = b i j + b i i * (w - 1) i j := by
  have hsplit : a = b + b * (w - 1) := by rw [hab, Matrix.mul_sub, Matrix.mul_one]; abel
  have hrow : (b * (w - 1)) i j = b i i * (w - 1) i j := by
    rw [Matrix.mul_apply]
    refine Finset.sum_eq_single i (fun k _ hk => ?_) (fun hi => absurd (Finset.mem_univ i) hi)
    -- the combination has nothing from the rows above, and the basis nothing right of the diagonal
    rcases lt_or_gt_of_ne hk with hlt | hgt
    · rw [habove k hlt j, mul_zero]
    · rw [hb.lower_triangular i k hgt, zero_mul]
  rw [← hrow, ← Matrix.add_apply, ← hsplit]

/-- Rows that are congruent modulo the diagonal entries of both are equal. -/
theorem IsReduced.row_eq (ha : IsReduced a) (hb : IsReduced b) {i : Fin n}
    (hab : ∀ j, b i i ∣ a i j - b i j) (hba : a i i ∣ b i i - a i i) (j : Fin n) :
    a i j = b i j := by
  have hdiag : a i i = b i i :=
    Int.dvd_antisymm (ha.diagonal_pos i).le (hb.diagonal_pos i).le
      ((dvd_sub_self_right).mp hba) ((dvd_sub_self_right).mp (hab i))
  rcases lt_trichotomy j i with hlt | rfl | hgt
  · obtain ⟨ha₀, ha₁⟩ := ha.reduced i j hlt
    obtain ⟨hb₀, hb₁⟩ := hb.reduced i j hlt
    exact Int.eq_of_sub_eq_zero (Int.eq_zero_of_abs_lt_dvd (hab j) (by rw [abs_lt]; omega))
  · exact hdiag
  · rw [ha.lower_triangular i j hgt, hb.lower_triangular i j hgt]

/-- A lattice of full rank has one reduced basis. -/
theorem IsReduced.unique (ha : IsReduced a) (hb : IsReduced b)
    (h : Set.range (a *ᵥ ·) = Set.range (b *ᵥ ·)) : a = b := by
  obtain ⟨w, hw⟩ := exists_eq_mul h.le
  obtain ⟨v, hv⟩ := exists_eq_mul h.ge
  have hrows : ∀ i j, a i j = b i j ∧ (w - 1) i j = 0 ∧ (v - 1) i j = 0 := by
    intro i
    induction i using WellFoundedLT.induction with
    | ind i ih =>
      have hab := hb.apply_mul hw fun k hk j => (ih k hk j).2.1
      have hba := ha.apply_mul hv fun k hk j => (ih k hk j).2.2
      have hrow := ha.row_eq hb (fun j => ⟨_, sub_eq_of_eq_add' (hab j)⟩)
        ⟨_, sub_eq_of_eq_add' (hba i)⟩
      intro j
      refine ⟨hrow j, ?_, ?_⟩
      · have hzero : b i i * (w - 1) i j = 0 := by linarith [hab j, hrow j]
        exact (mul_eq_zero.mp hzero).resolve_left (hb.diagonal_pos i).ne'
      · have hzero : a i i * (v - 1) i j = 0 := by linarith [hba j, hrow j]
        exact (mul_eq_zero.mp hzero).resolve_left (ha.diagonal_pos i).ne'
  ext i j
  exact (hrows i j).1

/-! ### The algorithm on reduced matrices -/

theorem triangularizeRow_eq_self {f : HermiteForm} {i : ℕ}
    (hright : ∀ c, i < c → f.triangular.entry i c = 0) (hdiag : 0 ≤ f.triangular.entry i i) :
    f.triangularizeRow i = f := by
  rw [triangularizeRow, clearRow, if_pos (isCleared_iff.mpr hright), fixSign, if_neg (by omega)]

theorem reduceRow_eq_self {f : HermiteForm} {i : ℕ}
    (hreduced : ∀ c < i, 0 ≤ f.triangular.entry i c ∧
      f.triangular.entry i c < f.triangular.entry i i) : f.reduceRow i = f := by
  have hquot : leftQuotients f.triangular i = fun _ => 0 := by
    funext c
    unfold leftQuotients
    split
    · next hc =>
      obtain ⟨hnonneg, hlt⟩ := hreduced c hc
      rw [Rounding.quotient, Int.fdiv_eq_ediv_of_nonneg _ (by omega), Int.ediv_eq_zero_of_lt hnonneg hlt]
    · rfl
  have hkeep : ∀ m : IntMatrix, m.subColMultiples i (fun _ => 0) = m := fun m =>
    ofFn_eq fun r _ c _ => by rw [zero_mul, sub_zero]
  unfold reduceRow
  split
  · rfl
  · rw [hquot, mapBoth]
    simp only [hkeep]

/-- The algorithm keeps a reduced basis as it is, and records no operation. -/
theorem ofMatrix_of_isReduced {m : IntMatrix} (hr : m.rows = n) (hc : m.cols = n)
    (h : IsReduced (m.toMatrix n n)) : ofMatrix m = .ok ⟨m, identity n⟩ := by
  have hright : ∀ i < n, ∀ c, i < c → m.entry i c = 0 := by
    intro i hi c hic
    by_cases hcn : c < n
    · exact h.lower_triangular ⟨i, hi⟩ ⟨c, hcn⟩ hic
    · exact entry_eq_zero fun hin => hcn (hc ▸ hin.2)
  have hcleared := foldl_range_induction (P := fun _ f => f = HermiteForm.mk m (identity n))
    (f := triangularizeRow) n rfl fun i hi f hf => by
      subst hf
      exact triangularizeRow_eq_self (hright i hi) (h.diagonal_pos ⟨i, hi⟩).le
  have hkept := foldl_range_induction (P := fun _ f => f = HermiteForm.mk m (identity n))
    (f := reduceRow) n rfl fun i hi f hf => by
      subst hf
      exact reduceRow_eq_self fun c hci => h.reduced ⟨i, hi⟩ ⟨c, by omega⟩ hci
  have hsquare : m.isSquare := beq_iff_eq.mpr (hr.trans hc.symm)
  rw [ofMatrix, if_pos hsquare, hr]
  simp only [hcleared, hkept]

/-! ### The normal form of a lattice -/

theorem Represents.isReduced {f : HermiteForm} (h : f.Represents a)
    (hcleared : ClearedAbove f.triangular n) (hreduced : ReducedAbove f.triangular n)
    (hdet : a.det ≠ 0) : IsReduced (f.triangular.toMatrix n n) where
  lower_triangular i j hij := (hcleared i i.2).1 j hij
  diagonal_pos i := h.diagonal_pos hcleared hdet i.2
  reduced i j hij := hreduced i i.2 (h.diagonal_pos hcleared hdet i.2) j hij

theorem exists_ofMatrix {m : IntMatrix} (hr : m.rows = n) (hc : m.cols = n)
    (hdet : (m.toMatrix n n).det ≠ 0) :
    ∃ f, ofMatrix m = .ok f ∧ f.Represents (m.toMatrix n n) ∧
      IsReduced (f.triangular.toMatrix n n) ∧ f.diagonal.prod = |(m.toMatrix n n).det| := by
  obtain ⟨f, hf, hrep, hcleared, hreduced⟩ := ofMatrix_eq_ok hr hc
  exact ⟨f, hf, hrep, hrep.isReduced hcleared hreduced hdet, hrep.prod_diagonal hcleared⟩

theorem isReduced_one : IsReduced (1 : Matrix (Fin n) (Fin n) ℤ) where
  lower_triangular _ _ hij := Matrix.one_apply_ne hij.ne
  diagonal_pos i := by rw [Matrix.one_apply_eq]; exact Int.one_pos
  reduced i j hij := by rw [Matrix.one_apply_ne hij.ne', Matrix.one_apply_eq]; decide

/-- The columns of a unimodular matrix span all integer points, which the unit vectors do as well. -/
theorem triangular_eq_identity {m : IntMatrix} {f : HermiteForm} (hf : f.Represents (m.toMatrix n n))
    (hred : IsReduced (f.triangular.toMatrix n n)) (hunit : IsUnit (m.toMatrix n n).det) :
    f.triangular = identity n := by
  refine toMatrix_inj hf.triangular_rows hf.triangular_cols rfl rfl ?_
  rw [toMatrix_identity]
  refine hred.unique isReduced_one ?_
  rw [← hf.range_mulVec, ← Matrix.one_mul (m.toMatrix n n), range_mulVec_mul hunit]

theorem triangular_eq_iff {f g : HermiteForm} (hf : f.Represents a) (hg : g.Represents b)
    (hfr : IsReduced (f.triangular.toMatrix n n)) (hgr : IsReduced (g.triangular.toMatrix n n)) :
    f.triangular = g.triangular ↔ Set.range (a *ᵥ ·) = Set.range (b *ᵥ ·) := by
  rw [hf.range_mulVec, hg.range_mulVec]
  constructor
  · intro h
    rw [h]
  · intro h
    exact toMatrix_inj hf.triangular_rows hf.triangular_cols hg.triangular_rows hg.triangular_cols
      (hfr.unique hgr h)

theorem exists_mul?_iff {m m' : IntMatrix} (hr : m.rows = n) (hc : m.cols = n) (hr' : m'.rows = n)
    (hc' : m'.cols = n) :
    (∃ u : IntMatrix, u.rows = n ∧ u.cols = n ∧ IsUnit (u.toMatrix n n).det ∧ m.mul? u = some m') ↔
      ∃ v, IsUnit v.det ∧ m.toMatrix n n * v = m'.toMatrix n n := by
  constructor
  · rintro ⟨u, hur, huc, hunit, hmul⟩
    exact ⟨_, hunit, ((mul?_eq_some hr hc hur huc hr' hc').mp hmul).symm⟩
  · rintro ⟨v, hunit, hmul⟩
    obtain ⟨u, hur, huc, rfl⟩ := exists_toMatrix v
    exact ⟨u, hur, huc, hunit, (mul?_eq_some hr hc hur huc hr' hc').mpr hmul.symm⟩

/-- The Hermite normal form is canonical. The forms of two non-singular matrices of one size have
the same triangular matrix exactly if the columns of both span the same lattice, that is, if one of
them is the other one times a unimodular matrix. A matrix that is reduced already is its own form,
with the identity as the column operations. -/
theorem ofMatrix_canonical (m m' : IntMatrix) (hr : m.rows = n) (hc : m.cols = n)
    (hr' : m'.rows = n) (hc' : m'.cols = n) (hdet : (m.toMatrix n n).det ≠ 0)
    (hdet' : (m'.toMatrix n n).det ≠ 0) :
    ∃ f f', ofMatrix m = .ok f ∧ ofMatrix m' = .ok f' ∧
      (f.triangular = f'.triangular ↔
        Set.range (m.toMatrix n n *ᵥ ·) = Set.range (m'.toMatrix n n *ᵥ ·)) ∧
      (f.triangular = f'.triangular ↔ ∃ u : IntMatrix, u.rows = n ∧ u.cols = n ∧
        IsUnit (u.toMatrix n n).det ∧ m.mul? u = some m') ∧
      (IsReduced (m.toMatrix n n) → f = ⟨m, identity n⟩) := by
  obtain ⟨f, hf, hrep, hred, -⟩ := exists_ofMatrix hr hc hdet
  obtain ⟨f', hf', hrep', hred', -⟩ := exists_ofMatrix hr' hc' hdet'
  have hlattice := triangular_eq_iff hrep hrep' hred hred'
  refine ⟨f, f', hf, hf', hlattice, ?_, fun h => ?_⟩
  · rw [hlattice, range_mulVec_eq_iff hdet, exists_mul?_iff hr hc hr' hc']
  · rw [ofMatrix_of_isReduced hr hc h] at hf
    cases hf
    rfl

/-- Two bases of a lattice of index 6. The first one is reduced, so it is the form of both. -/
theorem ofMatrix_canonical_index_six :
    ofMatrix ⟨2, 2, #v[#v[1, 0], #v[5, 6]]⟩ =
        .ok ⟨⟨2, 2, #v[#v[1, 0], #v[5, 6]]⟩, identity 2⟩ ∧
      ∃ f, ofMatrix ⟨2, 2, #v[#v[3, 2], #v[3, 4]]⟩ = .ok f ∧
        f.triangular = ⟨2, 2, #v[#v[1, 0], #v[5, 6]]⟩ := by
  have hreduced : IsReduced (toMatrix (⟨2, 2, #v[#v[1, 0], #v[5, 6]]⟩ : IntMatrix) 2 2) := by
    constructor <;> simp [Fin.forall_fin_two] <;> decide
  have hdet : (toMatrix (⟨2, 2, #v[#v[3, 2], #v[3, 4]]⟩ : IntMatrix) 2 2).det ≠ 0 := by
    rw [det_fin_two]
    decide
  obtain ⟨f, g, hf, hg, -, hfactor, hkeep⟩ :=
    ofMatrix_canonical ⟨2, 2, #v[#v[1, 0], #v[5, 6]]⟩ ⟨2, 2, #v[#v[3, 2], #v[3, 4]]⟩ rfl rfl rfl rfl
      hreduced.det_ne_zero hdet
  obtain rfl := hkeep hreduced
  refine ⟨hf, g, hg, (hfactor.mpr ⟨⟨2, 2, #v[#v[3, 2], #v[-2, -1]]⟩, rfl, rfl, ?_, by decide⟩).symm⟩
  rw [det_fin_two]
  decide

end HermiteForm

end AffineLoops
