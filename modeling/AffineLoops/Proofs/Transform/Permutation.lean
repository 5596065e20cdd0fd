import AffineLoops.Proofs.Transform.Images
import Mathlib.Data.Fintype.EquivFin
/-!
# Signed permutations

A matrix with one nonzero entry in every row and column, a 1 or a -1, moves the axes around and
turns some of them. Its coordinates are read off row by row: each of them is one coordinate of the
iteration, with a sign.

## Main definitions

- `IntMatrix.IsSignedPermutation`, `IntMatrix.isSignedPermutation_iff` — the condition, and its test
- `IntMatrix.IsSignedPermutation.exists_perm` — the axes and signs of the rows
- `Transform.toVec_apply_of_perm` — the image of an iteration
-/

namespace AffineLoops

open Matrix DenseMatrix

namespace IntMatrix

variable {m : IntMatrix} {n : ℕ}

/-- Every row and every column has exactly one nonzero entry, and all of these are 1 or -1. -/
structure IsSignedPermutation (m : IntMatrix) : Prop where
  square : m.rows = m.cols
  unit : ∀ i j, m.entry i j ≠ 0 → m.entry i j = 1 ∨ m.entry i j = -1
  row : ∀ i < m.rows, ∃! j, m.entry i j ≠ 0
  col : ∀ j < m.cols, ∃! i, m.entry i j ≠ 0

theorem length_filter_eq_zero_iff {l : List ℤ} :
    (l.filter (· ≠ 0)).length = 0 ↔ ∀ k, l.getD k 0 = 0 := by
  rw [List.length_eq_zero_iff, List.filter_eq_nil_iff]
  constructor
  · intro h k
    rw [List.getD_eq_getElem?_getD]
    cases hk : l[k]? with
    | none => rfl
    | some x => simpa using h x (List.mem_of_getElem? hk)
  · intro h x hx
    obtain ⟨k, hk⟩ := List.mem_iff_getElem?.mp hx
    simpa [List.getD_eq_getElem?_getD, hk] using h k

/-- Counting the nonzero entries of a list finds one exactly if there is one position of such an
entry. -/
theorem length_filter_eq_one_iff {l : List ℤ} :
    (l.filter (· ≠ 0)).length = 1 ↔ ∃! k, l.getD k 0 ≠ 0 := by
  induction l with
  | nil => simp
  | cons x l ih =>
    by_cases hx : x = 0
    · have hfilter : (x :: l).filter (· ≠ 0) = l.filter (· ≠ 0) :=
        List.filter_cons_of_neg (by simp [hx])
      rw [hfilter, ih]
      constructor
      · rintro ⟨k, hk, huniq⟩
        refine ⟨k + 1, hk, fun j hj => ?_⟩
        cases j with
        | zero => exact absurd hx hj
        | succ j => rw [huniq j hj]
      · rintro ⟨k, hk, huniq⟩
        cases k with
        | zero => exact absurd hx hk
        | succ k => exact ⟨k, hk, fun j hj => Nat.succ_injective (huniq (j + 1) hj)⟩
    · rw [List.filter_cons_of_pos (by simpa using hx), List.length_cons, Nat.add_eq_right,
        length_filter_eq_zero_iff]
      constructor
      · intro hrest
        refine ⟨0, hx, fun j hj => ?_⟩
        cases j with
        | zero => rfl
        | succ j => exact absurd (hrest j) hj
      · rintro ⟨k, -, huniq⟩ j
        by_contra hj
        have hsame := (huniq 0 hx).trans (huniq (j + 1) hj).symm
        omega

theorem isSignedUnit_iff {l : List ℤ} :
    isSignedUnit l ↔ (∀ k, l.getD k 0 ≠ 0 → l.getD k 0 = 1 ∨ l.getD k 0 = -1) ∧
      ∃! k, l.getD k 0 ≠ 0 := by
  rw [isSignedUnit, Bool.and_eq_true, beq_iff_eq, length_filter_eq_one_iff, List.all_eq_true]
  refine and_congr_left fun _ => ?_
  constructor
  · intro h k hk
    rw [List.getD_eq_getElem?_getD] at hk ⊢
    cases hget : l[k]? with
    | none => simp [hget] at hk
    | some x =>
      have hx := h x (List.mem_of_getElem? hget)
      simp only [hget, Option.getD_some, Bool.or_eq_true, beq_iff_eq] at hk hx ⊢
      exact (or_assoc.mp hx).resolve_left hk
  · intro h x hx
    obtain ⟨k, hk⟩ := List.mem_iff_getElem?.mp hx
    have hunit := h k
    simp only [List.getD_eq_getElem?_getD, hk, Option.getD_some] at hunit
    by_cases hzero : x = 0
    · simp [hzero]
    · rcases hunit hzero with h1 | h1 <;> simp [h1]

theorem forall_mem_toRows {P : List ℤ → Prop} :
    (∀ l ∈ m.toRows, P l) ↔ ∀ i < m.rows, P (List.ofFn fun j : Fin m.cols => m.entry i j) := by
  rw [toRows_eq m rfl rfl, List.forall_mem_ofFn_iff]
  exact ⟨fun h i hi => h ⟨i, hi⟩, fun h i => h i i.2⟩

theorem getD_ofFn_entry (i k : ℕ) :
    (List.ofFn fun j : Fin m.cols => m.entry i j).getD k 0 = m.entry i k := by
  by_cases hk : k < m.cols
  · simp [List.getD_eq_getElem?_getD, hk]
  · rw [entry_eq_zero fun h => hk h.2]
    simp [List.getD_eq_getElem?_getD, hk]

theorem entry_transpose (i j : ℕ) : m.transpose.entry i j = m.entry j i := by
  rw [transpose, entry_ofFn]
  split
  · rfl
  · next h => rw [entry_eq_zero fun hin => h hin.symm]

theorem isSignedPermutation_iff : m.isSignedPermutation ↔ m.IsSignedPermutation := by
  have hrows : (∀ l ∈ m.toRows, isSignedUnit l) ↔ ∀ i < m.rows,
      (∀ j, m.entry i j ≠ 0 → m.entry i j = 1 ∨ m.entry i j = -1) ∧ ∃! j, m.entry i j ≠ 0 := by
    simp only [forall_mem_toRows, isSignedUnit_iff, getD_ofFn_entry]
  have hcols : (∀ l ∈ m.transpose.toRows, isSignedUnit l) ↔ ∀ j < m.cols,
      (∀ i, m.entry i j ≠ 0 → m.entry i j = 1 ∨ m.entry i j = -1) ∧ ∃! i, m.entry i j ≠ 0 := by
    simp only [forall_mem_toRows, isSignedUnit_iff, getD_ofFn_entry]
    simp only [entry_transpose]
    rfl
  rw [isSignedPermutation, Bool.and_eq_true, Bool.and_eq_true, List.all_eq_true, List.all_eq_true,
    hrows, hcols, isSquare, beq_iff_eq]
  constructor
  · rintro ⟨⟨hsquare, hrow⟩, hcol⟩
    refine ⟨hsquare, fun i j h => ?_, fun i hi => (hrow i hi).2, fun j hj => (hcol j hj).2⟩
    have hin : i < m.rows ∧ j < m.cols := by_contra fun hout => h (entry_eq_zero hout)
    exact (hrow i hin.1).1 j h
  · intro h
    exact ⟨⟨h.square, fun i hi => ⟨h.unit i, h.row i hi⟩⟩,
      fun j hj => ⟨fun i => h.unit i j, h.col j hj⟩⟩

/-- Every row takes up one axis, with a sign, and no two rows the same. -/
theorem IsSignedPermutation.exists_perm (h : m.IsSignedPermutation) (hn : m.rows = n) :
    ∃ (σ : Equiv.Perm (Fin n)) (s : Fin n → ℤ), (∀ i, s i = 1 ∨ s i = -1) ∧
      ∀ i j : Fin n, m.entry i j = if j = σ i then s i else 0 := by
  have hrow : ∀ i : Fin n, ∃ j : Fin n, m.entry i j ≠ 0 ∧ ∀ k, m.entry i k ≠ 0 → k = j := by
    intro i
    obtain ⟨j, hj, huniq⟩ := h.row i (hn ▸ i.2)
    have hin : j < m.cols := (by_contra fun hout => hj (entry_eq_zero hout) :
      (i : ℕ) < m.rows ∧ j < m.cols).2
    exact ⟨⟨j, by rw [← hn, h.square]; exact hin⟩, hj, huniq⟩
  choose axis haxis huniq using hrow
  have hinj : Function.Injective axis := by
    intro i i' heq
    -- both rows have an entry in this column
    obtain ⟨k, -, hk⟩ := h.col (axis i) (by rw [← h.square, hn]; exact (axis i).2)
    have hi' : m.entry i' (axis i) ≠ 0 := heq ▸ haxis i'
    exact Fin.ext ((hk i (haxis i)).trans (hk i' hi').symm)
  refine ⟨Equiv.ofBijective axis (Finite.injective_iff_bijective.mp hinj),
    fun i => m.entry i (axis i), fun i => h.unit i (axis i) (haxis i), fun i j => ?_⟩
  rw [Equiv.ofBijective_apply]
  split
  · next heq => rw [heq]
  · next hne => exact by_contra fun h0 => hne (Fin.ext (huniq i j h0))

theorem identity_isSignedPermutation (n : ℕ) : (identity n).IsSignedPermutation := by
  have hentry : ∀ i j, (identity n).entry i j ≠ 0 ↔ i < n ∧ i = j := by
    intro i j
    rw [identity, entry_ofFn]
    split
    · next h => simp [h.1]
    · next h =>
      have hout : ¬(i < n ∧ i = j) := by omega
      simpa using hout
  refine ⟨rfl, fun i j h => ?_, fun i hi => ?_, fun j hj => ?_⟩
  · obtain ⟨hi, rfl⟩ := (hentry i j).mp h
    exact Or.inl (by rw [entry_identity hi hi, if_pos rfl])
  · exact ⟨i, (hentry i i).mpr ⟨hi, rfl⟩, fun j hj => ((hentry i j).mp hj).2.symm⟩
  · exact ⟨j, (hentry j j).mpr ⟨hj, rfl⟩, fun i hi => ((hentry i j).mp hi).2⟩

end IntMatrix

/-- Each coordinate of the image is one coordinate of the iteration, with a sign. -/
theorem Transform.toVec_apply_of_perm {t : Transform} (ht : t.Proper) {p : Point}
    (hp : p.length = t.dim) {σ : Equiv.Perm (Fin t.dim)} {s : Fin t.dim → ℤ}
    (hentry : ∀ i j : Fin t.dim, t.matrix.entry i j = if j = σ i then s i else 0) (i : Fin t.dim) :
    (t.apply p).toVec t.dim i = s i * p.toVec t.dim (σ i) := by
  rw [ht.apply_eq hp, Point.toVec_ofFn, mulVec, dotProduct]
  simp [hentry]

end AffineLoops
