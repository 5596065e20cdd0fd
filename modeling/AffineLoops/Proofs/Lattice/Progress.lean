import AffineLoops.Proofs.Lattice.Diagonal
import AffineLoops.Proofs.Lattice.Diagonalization
import Mathlib.Algebra.Order.BigOperators.Group.List
import Mathlib.Data.Prod.Lex
/-!
# Progress of the diagonalization

A round at position `k` makes progress, with one exception. The column is cleared with the row of its
least entry, before this row is brought to `k`. If it is another row than `k`, and row `k` has a
multiple of the entry, then row `k` loses its entry and takes over multiples of the others of that
row: it has been cleared, and is dragged back. Every other round decreases a rank, in which the least
magnitude of row `k` counts first.

## Main definitions

- `pivot?`, `IsPivot` — the choice of a pivot, in a row or in a column
- `Reduces` — values reduced modulo the pivot
- `DiagonalForm.turn_cases` — what a round does
- `DiagonalForm.Drags` — the rounds without progress
- `DiagonalForm.rank`, `DiagonalForm.rank_turn_lt` — what all others decrease
-/

namespace AffineLoops

open IntMatrix DenseMatrix

/-! ### Pivots -/

variable {f g : ℕ → ℤ} {k n c : ℕ}

/-- The position of the least nonzero magnitude from `k` on, if at least two values are nonzero
there. -/
def pivot? (f : ℕ → ℤ) (k n : ℕ) : Option ℕ :=
  if 2 ≤ ((positions k n).filter (f · ≠ 0)).length then leastMagnitude? f (positions k n) else none

theorem pivot?_eq_none_iff : pivot? f k n = none ↔ AtMostOne f k n := by
  refine ⟨atMostOne_of_pivot, fun hone => if_neg fun htwo => ?_⟩
  have hnodup : ((positions k n).filter (f · ≠ 0)).Nodup :=
    List.Nodup.filter _ (by simp [positions, List.nodup_range'])
  obtain ⟨a, b, rest, hlist⟩ :
      ∃ a b rest, (positions k n).filter (f · ≠ 0) = a :: b :: rest := by
    cases hlist : (positions k n).filter (f · ≠ 0) with
    | nil =>
      rw [hlist] at htwo
      simp at htwo
    | cons a tail =>
      cases tail with
      | nil =>
        rw [hlist] at htwo
        simp at htwo
      | cons b rest => exact ⟨a, b, rest, rfl⟩
  have hmem : ∀ x ∈ a :: b :: rest, (k ≤ x ∧ x < n) ∧ f x ≠ 0 := by
    intro x hx
    rw [← hlist, List.mem_filter, mem_positions] at hx
    simpa using hx
  obtain ⟨⟨hka, han⟩, hfa⟩ := hmem a (by simp)
  obtain ⟨⟨hkb, hbn⟩, hfb⟩ := hmem b (by simp)
  rw [hlist, hone a b hka han hkb hbn hfa hfb] at hnodup
  simp at hnodup

theorem rowPivot?_eq_none_iff {m : IntMatrix} :
    m.rowPivot? k k = none ↔ AtMostOne (m.entry k ·) k m.cols :=
  pivot?_eq_none_iff

theorem colPivot?_eq_none_iff {m : IntMatrix} :
    m.colPivot? k k = none ↔ AtMostOne (m.entry · k) k m.rows :=
  pivot?_eq_none_iff

/-- The value at `c` is the first one of least nonzero magnitude, and not the only nonzero one. -/
structure IsPivot (f : ℕ → ℤ) (k n c : ℕ) : Prop where
  le : k ≤ c
  lt : c < n
  ne_zero : f c ≠ 0
  least : ∀ j, k ≤ j → j < n → f j ≠ 0 → (f c).natAbs ≤ (f j).natAbs
  first : c ≠ k → f k ≠ 0 → (f c).natAbs < (f k).natAbs
  other : ∃ j, k ≤ j ∧ j < n ∧ j ≠ c ∧ f j ≠ 0

/-- A later candidate is only found if it is smaller. -/
theorem natAbs_lt_of_leastMagnitude? {a : ℕ} {rest : List ℕ}
    (h : leastMagnitude? f (a :: rest) = some c) (hc : c ≠ a) (ha : f a ≠ 0) :
    (f c).natAbs < (f a).natAbs := by
  rw [leastMagnitude?] at h
  split at h
  · rw [if_neg ha, Option.some_inj] at h
    exact absurd h.symm hc
  · split at h
    · rw [Option.some_inj] at h
      exact absurd h.symm hc
    · next best _ hlt =>
      rw [Option.some_inj] at h
      subst h
      exact not_le.mp fun hle => hlt ⟨ha, hle⟩

theorem isPivot_of_eq_some (h : pivot? f k n = some c) : IsPivot f k n c := by
  have hone : ¬AtMostOne f k n := by
    rw [← pivot?_eq_none_iff, h]
    exact Option.some_ne_none c
  rw [pivot?] at h
  split at h
  swap
  · cases h
  obtain ⟨hmem, hne, hleast⟩ := leastMagnitude?_eq_some h
  obtain ⟨hkc, hcn⟩ := mem_positions.mp hmem
  refine ⟨hkc, hcn, hne, fun j hkj hj => hleast j (mem_positions.mpr ⟨hkj, hj⟩), fun hck hk => ?_, ?_⟩
  · rw [positions_eq_cons (by omega)] at h
    exact natAbs_lt_of_leastMagnitude? h hck hk
  · by_contra hnone
    push Not at hnone
    refine hone fun i j hki hi hkj hj hfi hfj => ?_
    have hi : i = c := by_contra fun hne => hfi (hnone i hki hi hne)
    have hj : j = c := by_contra fun hne => hfj (hnone j hkj hj hne)
    rw [hi, hj]

theorem find?_positions_of_ne_zero (hk : k < n) (hne : f k ≠ 0) :
    (positions k n).find? (f · ≠ 0) = some k := by
  rw [positions_eq_cons hk, List.find?_cons_of_pos (by simpa using hne)]

theorem find?_positions_of_zero (hzero : ∀ j, k ≤ j → j < n → f j = 0) :
    (positions k n).find? (f · ≠ 0) = none := by
  rw [List.find?_eq_none]
  intro j hj
  obtain ⟨hkj, hjn⟩ := mem_positions.mp hj
  simpa using hzero j hkj hjn

theorem IsPivot.leastAbs_eq (h : IsPivot f k n c) : leastAbs f k n = (f c).natAbs :=
  IntMatrix.leastAbs_eq h.le h.lt h.ne_zero h.least

/-- All values besides the pivot are reduced modulo it. -/
structure Reduces (f g : ℕ → ℤ) (k n c : ℕ) : Prop where
  pivot : g c = f c
  small : ∀ j, k ≤ j → j < n → j ≠ c → (g j).natAbs < (f c).natAbs
  zero : ∀ j, k ≤ j → j < n → f j = 0 → g j = 0

theorem IsPivot.reduces (h : IsPivot f k n c) (hg : ∀ j, k ≤ j → j < n → g j =
    f j - (if k ≤ j ∧ j ≠ c then Rounding.floor.quotient (f j) (f c) else 0) * f c) :
    Reduces f g k n c where
  pivot := by simp [hg c h.le h.lt]
  small j hkj hj hjc := by
    rw [hg j hkj hj, if_pos ⟨hkj, hjc⟩]
    exact Rounding.natAbs_sub_floor_mul_lt (f j) h.ne_zero
  zero j hkj hj hzero := by
    rw [hg j hkj hj, hzero]
    simp [Rounding.quotient]

/-- A reduction makes the values smaller, all in all. -/
theorem Reduces.sum_lt (hred : Reduces f g k n c) (h : IsPivot f k n c) :
    ((positions k n).map fun j => (g j).natAbs).sum <
      ((positions k n).map fun j => (f j).natAbs).sum := by
  have hle : ∀ j, k ≤ j → j < n → (g j).natAbs ≤ (f j).natAbs := by
    intro j hkj hj
    by_cases hjc : j = c
    · rw [hjc, hred.pivot]
    · by_cases hzero : f j = 0
      · rw [hred.zero j hkj hj hzero, hzero]
      · exact (hred.small j hkj hj hjc).le.trans (h.least j hkj hj hzero)
  obtain ⟨j, hkj, hj, hjc, hne⟩ := h.other
  refine List.sum_lt_sum _ _ (fun i hi => ?_) ⟨j, mem_positions.mpr ⟨hkj, hj⟩, ?_⟩
  · obtain ⟨hki, hin⟩ := mem_positions.mp hi
    exact hle i hki hin
  · exact (hred.small j hkj hj hjc).trans_le (h.least j hkj hj hne)

theorem Reduces.leastAbs_le (hred : Reduces f g k n c) (h : IsPivot f k n c) :
    leastAbs g k n ≤ leastAbs f k n := by
  rw [h.leastAbs_eq, ← hred.pivot]
  exact IntMatrix.leastAbs_le h.le h.lt (by rw [hred.pivot]; exact h.ne_zero)

/-! ### Rounds -/

namespace DiagonalForm

variable {f g g' : DiagonalForm} {k r : ℕ}

/-- A round reduces the row, or reduces the column once the row has a single entry, or exchanges rows
once both have. -/
theorem turn_cases (f : DiagonalForm) (k : ℕ) :
    (∃ c, IsPivot (f.diagonal.entry k ·) k f.diagonal.cols c ∧
      f.turn k = (f.onCols (·.subColMultiples c (rowQuotients f.diagonal k c)), false)) ∨
    (AtMostOne (f.diagonal.entry k ·) k f.diagonal.cols ∧
      ∃ r, (f.bringCol k).diagonal.colPivot? k k = some r ∧
        f.turn k = ((f.bringCol k).onRows
          (·.subRowMultiples r (colQuotients (f.bringCol k).diagonal k r)), false)) ∨
    AtMostOne (f.diagonal.entry k ·) k f.diagonal.cols ∧
      AtMostOne ((f.bringCol k).diagonal.entry · k) k (f.bringCol k).diagonal.rows ∧
        f.turn k = ((f.bringCol k).bringRow k,
          (((f.bringCol k).bringRow k).diagonal.rowPivot? k k).isNone) := by
  unfold turn
  cases hrow : f.diagonal.rowPivot? k k with
  | some c => exact Or.inl ⟨c, isPivot_of_eq_some hrow, rfl⟩
  | none =>
    refine Or.inr ?_
    unfold turnColumn
    cases hcol : (f.bringCol k).diagonal.colPivot? k k with
    | some r => exact Or.inl ⟨rowPivot?_eq_none_iff.mp hrow, r, rfl, rfl⟩
    | none => exact Or.inr ⟨rowPivot?_eq_none_iff.mp hrow, colPivot?_eq_none_iff.mp hcol, rfl⟩

@[simp] theorem rows_bringCol (f : DiagonalForm) (k : ℕ) :
    (f.bringCol k).diagonal.rows = f.diagonal.rows := by
  unfold bringCol
  split <;> rfl

@[simp] theorem cols_bringCol (f : DiagonalForm) (k : ℕ) :
    (f.bringCol k).diagonal.cols = f.diagonal.cols := by
  unfold bringCol
  split <;> rfl

/-- The round clears the column with a later row that has other entries, and the entry of row `k` is
a multiple of the pivot: it vanishes, and multiples of the others come into row `k`. -/
def Drags (f : DiagonalForm) (k : ℕ) : Prop :=
  AtMostOne (f.diagonal.entry k ·) k f.diagonal.cols ∧
    ∃ r, (f.bringCol k).diagonal.colPivot? k k = some r ∧ r ≠ k ∧
      (f.bringCol k).diagonal.entry k k ≠ 0 ∧
        (f.bringCol k).diagonal.entry r k ∣ (f.bringCol k).diagonal.entry k k ∧
          ∃ j, k < j ∧ (f.bringCol k).diagonal.entry r j ≠ 0

/-- The least magnitude in row `k`. -/
def rowLeast (f : DiagonalForm) (k : ℕ) : ℕ :=
  leastAbs (f.diagonal.entry k ·) k f.diagonal.cols

/-- The least magnitude in column `k`. -/
def colLeast (f : DiagonalForm) (k : ℕ) : ℕ :=
  leastAbs (f.diagonal.entry · k) k f.diagonal.rows

/-- The least magnitude in row `k`, or in column `k` if the row is zero. -/
def least (f : DiagonalForm) (k : ℕ) : ℕ :=
  if f.rowLeast k = 0 then f.colLeast k else f.rowLeast k

/-- The sum of the magnitudes in row `k`, as long as there is something to reduce. -/
def rowWork (f : DiagonalForm) (k : ℕ) : ℕ :=
  if f.diagonal.rowPivot? k k = none then 0
  else ((positions k f.diagonal.cols).map fun j => (f.diagonal.entry k j).natAbs).sum

/-- The sum of the magnitudes in column `k`, once the only entry of the row has been brought there. -/
def colWork (f : DiagonalForm) (k : ℕ) : ℕ :=
  ((positions k f.diagonal.rows).map fun i => ((f.bringCol k).diagonal.entry i k).natAbs).sum

/-- What the rounds at position `k` decrease: the least magnitude, then whether the row is zero, then
what is left to do in the row and in the column. -/
def rank (f : DiagonalForm) (k : ℕ) : ℕ ×ₗ ℕ ×ₗ ℕ ×ₗ ℕ :=
  toLex (f.least k, toLex (if f.rowLeast k = 0 then 1 else 0, toLex (f.rowWork k, f.colWork k)))

theorem toLex_lt_of_lt {α β : Type} [Preorder α] [Preorder β] {a a' : α} {b b' : β} (h : a' < a) :
    toLex (a', b') < toLex (a, b) :=
  Prod.Lex.toLex_lt_toLex.mpr (Or.inl h)

theorem toLex_lt_of_le {α β : Type} [PartialOrder α] [Preorder β] {a a' : α} {b b' : β} (h : a' ≤ a)
    (hlt : b' < b) : toLex (a', b') < toLex (a, b) :=
  Prod.Lex.toLex_lt_toLex.mpr (h.lt_or_eq.imp_right fun heq => ⟨heq, hlt⟩)

theorem rowLeast_eq_zero_iff :
    f.rowLeast k = 0 ↔ ∀ j, k ≤ j → j < f.diagonal.cols → f.diagonal.entry k j = 0 :=
  leastAbs_eq_zero_iff

/-- A round that reduces the row. -/
theorem rank_reduceRow_lt {c : ℕ} (hk : k < f.diagonal.rows)
    (hc : IsPivot (f.diagonal.entry k ·) k f.diagonal.cols c) :
    (f.onCols (·.subColMultiples c (rowQuotients f.diagonal k c))).rank k < f.rank k := by
  obtain ⟨g, hg⟩ : ∃ g, g = f.onCols (·.subColMultiples c (rowQuotients f.diagonal k c)) := ⟨_, rfl⟩
  have hcols : g.diagonal.cols = f.diagonal.cols := by rw [hg]; rfl
  have hred : Reduces (f.diagonal.entry k ·) (g.diagonal.entry k ·) k f.diagonal.cols c := by
    refine hc.reduces fun j _ hj => ?_
    rw [hg]
    exact entry_subColMultiples hk hj
  have hne : f.rowLeast k ≠ 0 := fun h => hc.ne_zero (rowLeast_eq_zero_iff.mp h c hc.le hc.lt)
  have hne' : g.rowLeast k ≠ 0 := by
    intro h
    refine hc.ne_zero ?_
    rw [← hred.pivot]
    exact rowLeast_eq_zero_iff.mp h c hc.le (by rw [hcols]; exact hc.lt)
  have hleast : g.rowLeast k ≤ f.rowLeast k := by
    rw [rowLeast, hcols]
    exact hred.leastAbs_le hc
  have hwork : g.rowWork k < f.rowWork k := by
    have hpivot : f.diagonal.rowPivot? k k ≠ none := by
      rw [ne_eq, rowPivot?_eq_none_iff]
      intro hone
      obtain ⟨j, hkj, hj, hjc, hj0⟩ := hc.other
      exact hjc (hone j c hkj hj hc.le hc.lt hj0 hc.ne_zero)
    rw [rowWork, rowWork, if_neg hpivot, hcols]
    split
    · exact Nat.zero_lt_of_lt (hred.sum_lt hc)
    · exact hred.sum_lt hc
  rw [← hg, rank, rank, least, least, if_neg hne, if_neg hne', if_neg hne, if_neg hne']
  exact toLex_lt_of_le hleast (toLex_lt_of_le le_rfl (toLex_lt_of_lt hwork))

/-! ### Rounds that reduce the column -/

theorem bringCol_of_zero (hzero : ∀ j, k ≤ j → j < f.diagonal.cols → f.diagonal.entry k j = 0) :
    f.bringCol k = f := by
  rw [bringCol, find?_positions_of_zero hzero]

theorem bringCol_of_ne_zero (hk' : k < f.diagonal.cols) (hne : f.diagonal.entry k k ≠ 0) :
    f.bringCol k = f := by
  rw [bringCol, find?_positions_of_ne_zero hk' hne]
  simp only [onCols, swapCols_self]

theorem bringRow_of_zero (hzero : ∀ i, k ≤ i → i < f.diagonal.rows → f.diagonal.entry i k = 0) :
    f.bringRow k = f := by
  rw [bringRow, find?_positions_of_zero hzero]

theorem bringRow_of_ne_zero (hk : k < f.diagonal.rows) (hne : f.diagonal.entry k k ≠ 0) :
    f.bringRow k = f := by
  have hfind : (positions k f.diagonal.rows).find? (f.diagonal.entry · k ≠ 0) = some k :=
    find?_positions_of_ne_zero hk hne
  rw [bringRow, hfind]
  simp only [onRows, swapRows_self]

/-- Once row `k` only has its diagonal entry, there is nothing to bring. -/
theorem bringCol_of_row (hk' : k < f.diagonal.cols) (hrow : ∀ j, k < j → f.diagonal.entry k j = 0) :
    f.bringCol k = f := by
  by_cases hne : f.diagonal.entry k k = 0
  · refine bringCol_of_zero fun j hkj _ => ?_
    rcases hkj.eq_or_lt with rfl | hlt
    · exact hne
    · exact hrow j hlt
  · exact bringCol_of_ne_zero hk' hne

theorem bringRow_of_column (hk : k < f.diagonal.rows)
    (hcol : ∀ i, k < i → f.diagonal.entry i k = 0) : f.bringRow k = f := by
  by_cases hne : f.diagonal.entry k k = 0
  · refine bringRow_of_zero fun i hki _ => ?_
    rcases hki.eq_or_lt with rfl | hlt
    · exact hne
    · exact hcol i hlt
  · exact bringRow_of_ne_zero hk hne

/-- What row `k` looks like when its only entry has been brought to the diagonal. -/
structure Brought (f g : DiagonalForm) (k : ℕ) : Prop where
  rows : g.diagonal.rows = f.diagonal.rows
  cols : g.diagonal.cols = f.diagonal.cols
  row : ∀ j, k < j → g.diagonal.entry k j = 0
  rowWork : f.rowWork k = 0
  colWork : f.colWork k =
    ((positions k f.diagonal.rows).map fun i => (g.diagonal.entry i k).natAbs).sum
  least : f.least k = if g.diagonal.entry k k = 0 then g.colLeast k else (g.diagonal.entry k k).natAbs
  rowLeast : f.rowLeast k = (g.diagonal.entry k k).natAbs

theorem brought_bringCol (hk : k < f.diagonal.rows) (hk' : k < f.diagonal.cols)
    (hone : AtMostOne (f.diagonal.entry k ·) k f.diagonal.cols) : Brought f (f.bringCol k) k := by
  have hrow : ∀ j, k < j → (f.bringCol k).diagonal.entry k j = 0 := by
    intro j hkj
    by_cases hj : j < f.diagonal.cols
    · exact row_bringCol hk hone hkj hj
    · exact entry_eq_zero (by simp [hj])
  have hwork : f.rowWork k = 0 := if_pos (rowPivot?_eq_none_iff.mpr hone)
  have hcol : f.colWork k =
      ((positions k f.diagonal.rows).map fun i => ((f.bringCol k).diagonal.entry i k).natAbs).sum :=
    rfl
  by_cases hzero : ∀ j, k ≤ j → j < f.diagonal.cols → f.diagonal.entry k j = 0
  · have hsame := bringCol_of_zero hzero
    have hdiag : f.diagonal.entry k k = 0 := hzero k le_rfl hk'
    have hleast : f.rowLeast k = 0 := rowLeast_eq_zero_iff.mpr hzero
    rw [hsame] at hrow hcol ⊢
    refine ⟨rfl, rfl, hrow, hwork, hcol, ?_, ?_⟩
    · rw [DiagonalForm.least, if_pos hleast, if_pos hdiag]
    · rw [hleast, hdiag, Int.natAbs_zero]
  · -- the first nonzero entry is the only one
    cases hfind : (positions k f.diagonal.cols).find? (f.diagonal.entry k · ≠ 0) with
    | none =>
      rw [List.find?_eq_none] at hfind
      exact absurd (fun j hkj hj => by simpa using hfind j (mem_positions.mpr ⟨hkj, hj⟩)) hzero
    | some c =>
      obtain ⟨hkc, hc⟩ := mem_positions.mp (List.mem_of_find?_eq_some hfind)
      have hne : f.diagonal.entry k c ≠ 0 := by simpa using List.find?_some hfind
      have hdiag : (f.bringCol k).diagonal.entry k k = f.diagonal.entry k c := by
        simp only [bringCol, hfind, onCols]
        rw [entry_swapCols hk hk', swapIndex_left]
      have hleast : f.rowLeast k = (f.diagonal.entry k c).natAbs := by
        refine leastAbs_eq hkc hc hne fun j hkj hj hj0 => ?_
        rw [hone j c hkj hj hkc hc hj0 hne]
      refine ⟨by simp, by simp, hrow, hwork, hcol, ?_, ?_⟩
      · rw [DiagonalForm.least, hleast, hdiag, if_neg hne, if_neg (Int.natAbs_ne_zero.mpr hne)]
      · rw [hleast, hdiag]

theorem least_le_of_ne_zero (hk' : k < f.diagonal.cols) (hne : f.diagonal.entry k k ≠ 0) :
    f.least k ≤ (f.diagonal.entry k k).natAbs := by
  have hrow : f.rowLeast k ≠ 0 := fun h => hne (rowLeast_eq_zero_iff.mp h k le_rfl hk')
  rw [least, if_neg hrow]
  exact leastAbs_le le_rfl hk' hne

theorem atMostOne_of_row {e : ℕ → ℤ} {n : ℕ} (h : ∀ j, k < j → e j = 0) : AtMostOne e k n := by
  intro i j hki _ hkj _ hi hj
  have hik : i = k := by_contra fun hne => hi (h i (by omega))
  have hjk : j = k := by_contra fun hne => hj (h j (by omega))
  rw [hik, hjk]

/-- What clearing the column with row `r` does to the column, to row `r`, and to row `k` if that has
been cleared. -/
structure ColumnStep (g g' : DiagonalForm) (k r : ℕ) : Prop where
  rows : g'.diagonal.rows = g.diagonal.rows
  cols : g'.diagonal.cols = g.diagonal.cols
  pivot : IsPivot (g.diagonal.entry · k) k g.diagonal.rows r
  column : Reduces (g.diagonal.entry · k) (g'.diagonal.entry · k) k g.diagonal.rows r
  diagonal : g'.diagonal.entry k k =
    g.diagonal.entry k k - colQuotients g.diagonal k r k * g.diagonal.entry r k
  row : ∀ j, k < j → g'.diagonal.entry k j =
    -(colQuotients g.diagonal k r k * g.diagonal.entry r j)
  kept : ∀ j < g.diagonal.cols, g'.diagonal.entry r j = g.diagonal.entry r j

theorem columnStep_subRowMultiples (hk : k < g.diagonal.rows) (hk' : k < g.diagonal.cols)
    (hrow : ∀ j, k < j → g.diagonal.entry k j = 0) (hr : g.diagonal.colPivot? k k = some r) :
    ColumnStep g (g.onRows (·.subRowMultiples r (colQuotients g.diagonal k r))) k r := by
  have hpivot : IsPivot (g.diagonal.entry · k) k g.diagonal.rows r := isPivot_of_eq_some hr
  refine ⟨rfl, rfl, hpivot, hpivot.reduces fun i _ hi => entry_subRowMultiples hi hk',
    entry_subRowMultiples hk hk', fun j hkj => ?_, fun j hj => ?_⟩
  · by_cases hj : j < g.diagonal.cols
    · have hentry := entry_subRowMultiples (r := r) (q := colQuotients g.diagonal k r) hk hj
      rw [hrow j hkj, zero_sub] at hentry
      exact hentry
    · have hout : g.diagonal.entry r j = 0 := entry_eq_zero fun hin => hj hin.2
      rw [hout, mul_zero, neg_zero]
      exact entry_eq_zero fun hin => hj hin.2
  · have hnone : colQuotients g.diagonal k r r = 0 := if_neg fun hne => hne.2 rfl
    have hentry := entry_subRowMultiples (r := r) (q := colQuotients g.diagonal k r) hpivot.lt hj
    rw [hnone, zero_mul, sub_zero] at hentry
    exact hentry

/-- Row `k` is left alone, and the column shrinks. -/
theorem ColumnStep.rank_lt_of_kept (hs : ColumnStep g g' k r) (hb : Brought f g k)
    (hk : k < g.diagonal.rows) (hk' : k < g.diagonal.cols)
    (hkeep : colQuotients g.diagonal k r k = 0) : g'.rank k < f.rank k := by
  have hrow : ∀ j, k < j → g'.diagonal.entry k j = 0 := fun j hkj => by
    rw [hs.row j hkj, hkeep, zero_mul, neg_zero]
  have hdiag : g'.diagonal.entry k k = g.diagonal.entry k k := by
    rw [hs.diagonal, hkeep, zero_mul, sub_zero]
  rw [← hs.rows] at hk
  rw [← hs.cols] at hk'
  have hb' := brought_bringCol hk hk' (atMostOne_of_row hrow)
  rw [bringCol_of_row hk' hrow] at hb'
  have hleast : g'.least k ≤ f.least k := by
    rw [hb'.least, hb.least, hdiag]
    split
    · rw [colLeast, hs.rows]
      exact hs.column.leastAbs_le hs.pivot
    · exact le_rfl
  have hwork : g'.colWork k < f.colWork k := by
    rw [hb'.colWork, hb.colWork, hs.rows, ← hb.rows]
    exact hs.column.sum_lt hs.pivot
  rw [rank, rank, hb'.rowWork, hb.rowWork, hb'.rowLeast, hb.rowLeast, hdiag]
  exact toLex_lt_of_le hleast (toLex_lt_of_le le_rfl (toLex_lt_of_le le_rfl hwork))

/-- Row `k` loses a multiple of the pivot row. What is left of its entry is less than the pivot; if
nothing is, and nothing comes in beside it, the pivot is the least that is left. -/
theorem ColumnStep.rank_lt_of_reduced (hs : ColumnStep g g' k r) (hb : Brought f g k)
    (hk : k < g.diagonal.rows) (hk' : k < g.diagonal.cols)
    (hreduced : colQuotients g.diagonal k r k ≠ 0)
    (hnodrag : r ≠ k → g.diagonal.entry k k ≠ 0 →
      g.diagonal.entry r k ∣ g.diagonal.entry k k → ∀ j, k < j → g.diagonal.entry r j = 0) :
    g'.rank k < f.rank k := by
  have hrk : r ≠ k := by
    rintro rfl
    exact hreduced (by simp [colQuotients])
  have hne : g.diagonal.entry k k ≠ 0 := fun h =>
    hreduced (by simp [colQuotients, h, Rounding.quotient])
  rw [rank, rank, hb.least, if_neg hne]
  refine toLex_lt_of_lt ?_
  by_cases hrest : g'.diagonal.entry k k = 0
  · have hdvd : g.diagonal.entry r k ∣ g.diagonal.entry k k := by
      rw [hs.diagonal, sub_eq_zero] at hrest
      exact hrest ▸ dvd_mul_left _ _
    have hzero : g'.rowLeast k = 0 := by
      refine rowLeast_eq_zero_iff.mpr fun j hkj _ => ?_
      rcases hkj.eq_or_lt with rfl | hlt
      · exact hrest
      · rw [hs.row j hlt, hnodrag hrk hne hdvd j hlt, mul_zero, neg_zero]
    rw [least, if_pos hzero]
    calc g'.colLeast k ≤ (g'.diagonal.entry r k).natAbs :=
          leastAbs_le hs.pivot.le (by rw [hs.rows]; exact hs.pivot.lt)
            (by rw [hs.column.pivot]; exact hs.pivot.ne_zero)
      _ = (g.diagonal.entry r k).natAbs := congrArg Int.natAbs hs.column.pivot
      _ < (g.diagonal.entry k k).natAbs := hs.pivot.first hrk hne
  · calc g'.least k ≤ (g'.diagonal.entry k k).natAbs :=
          least_le_of_ne_zero (by rw [hs.cols]; exact hk') hrest
      _ < (g.diagonal.entry r k).natAbs := hs.column.small k le_rfl hk hrk.symm
      _ ≤ (g.diagonal.entry k k).natAbs := hs.pivot.least k le_rfl hk hne

/-- A round that reduces the column and does not drag anything back. -/
theorem rank_reduceColumn_lt (hk : k < f.diagonal.rows) (hk' : k < f.diagonal.cols)
    (hone : AtMostOne (f.diagonal.entry k ·) k f.diagonal.cols)
    (hr : (f.bringCol k).diagonal.colPivot? k k = some r) (hdrags : ¬f.Drags k) :
    ((f.bringCol k).onRows
      (·.subRowMultiples r (colQuotients (f.bringCol k).diagonal k r))).rank k < f.rank k := by
  have hb := brought_bringCol hk hk' hone
  rw [← hb.rows] at hk
  rw [← hb.cols] at hk'
  have hs := columnStep_subRowMultiples hk hk' hb.row hr
  by_cases hkeep : colQuotients (f.bringCol k).diagonal k r k = 0
  · exact hs.rank_lt_of_kept hb hk hk' hkeep
  · refine hs.rank_lt_of_reduced hb hk hk' hkeep fun hrk hne hdvd j hkj => ?_
    exact by_contra fun hj => hdrags ⟨hone, r, hr, hrk, hne, hdvd, j, hkj, hj⟩

/-! ### Rounds that exchange rows -/

/-- An exchange that does not settle the position brings an entry into a row of zeros. -/
theorem rank_bringRow_lt (hk : k < f.diagonal.rows) (hk' : k < f.diagonal.cols)
    (hone : AtMostOne (f.diagonal.entry k ·) k f.diagonal.cols)
    (hcol : AtMostOne ((f.bringCol k).diagonal.entry · k) k (f.bringCol k).diagonal.rows)
    (hopen : ((f.bringCol k).bringRow k).diagonal.rowPivot? k k ≠ none) :
    ((f.bringCol k).bringRow k).rank k < f.rank k := by
  have hb := brought_bringCol hk hk' hone
  have hbrow : (f.bringCol k).diagonal.rowPivot? k k = none :=
    rowPivot?_eq_none_iff.mpr (atMostOne_of_row hb.row)
  have hzero : (f.bringCol k).diagonal.entry k k = 0 := by
    by_contra hne
    rw [bringRow_of_ne_zero (by rw [hb.rows]; exact hk) hne] at hopen
    exact hopen hbrow
  have hleast : f.least k = (f.bringCol k).colLeast k := by rw [hb.least, if_pos hzero]
  have hrowLeast : f.rowLeast k = 0 := by rw [hb.rowLeast, hzero, Int.natAbs_zero]
  have hrows : k < (f.bringCol k).diagonal.rows := by rw [hb.rows]; exact hk
  have hcols : k < (f.bringCol k).diagonal.cols := by rw [hb.cols]; exact hk'
  generalize f.bringCol k = g at hcol hopen hbrow hleast hrows hcols ⊢
  cases hfind : (positions k g.diagonal.rows).find? (g.diagonal.entry · k ≠ 0) with
  | none =>
    simp only [bringRow, hfind] at hopen
    exact absurd hbrow hopen
  | some r =>
    obtain ⟨hkr, hr⟩ := mem_positions.mp (List.mem_of_find?_eq_some hfind)
    have hne : g.diagonal.entry r k ≠ 0 := by simpa using List.find?_some hfind
    have hdiag : (g.bringRow k).diagonal.entry k k = g.diagonal.entry r k := by
      simp only [bringRow, hfind, onRows]
      rw [entry_swapRows hrows hcols, swapIndex_left]
    have hcols' : k < (g.bringRow k).diagonal.cols := by
      simpa only [bringRow, hfind, onRows, cols_swapRows] using hcols
    have hcolLeast : g.colLeast k = (g.diagonal.entry r k).natAbs := by
      refine leastAbs_eq hkr hr hne fun i hki hi hi0 => ?_
      rw [hcol i r hki hi hkr hr hi0 hne]
    have hle : (g.bringRow k).least k ≤ f.least k := by
      rw [hleast, hcolLeast, ← hdiag]
      exact least_le_of_ne_zero hcols' (by rw [hdiag]; exact hne)
    have hnonzero : (g.bringRow k).rowLeast k ≠ 0 := fun h =>
      hne (hdiag ▸ rowLeast_eq_zero_iff.mp h k le_rfl hcols')
    rw [rank, rank, if_pos hrowLeast, if_neg hnonzero]
    exact toLex_lt_of_le hle (toLex_lt_of_lt zero_lt_one)

/-- Every round that neither settles the position nor drags anything back decreases the rank. -/
theorem rank_turn_lt (hk : k < f.diagonal.rows) (hk' : k < f.diagonal.cols)
    (hopen : (f.turn k).2 = false) (hdrags : ¬f.Drags k) : (f.turn k).1.rank k < f.rank k := by
  rcases turn_cases f k with ⟨c, hc, hturn⟩ | ⟨hone, r, hr, hturn⟩ | ⟨hone, hcol, hturn⟩
  · rw [hturn]
    exact rank_reduceRow_lt hk hc
  · rw [hturn]
    exact rank_reduceColumn_lt hk hk' hone hr hdrags
  · rw [hturn, Option.isNone_eq_false_iff, Option.isSome_iff_ne_none] at hopen
    rw [hturn]
    exact rank_bringRow_lt hk hk' hone hcol hopen

end DiagonalForm

end AffineLoops
