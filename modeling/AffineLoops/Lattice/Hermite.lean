import AffineLoops.Rounding
import AffineLoops.Matrix.Elementary
import AffineLoops.Matrix.Pivot
/-!
# Hermite normal form

For a square matrix `M` the form is a pair `(A, U)` with `A = M * U`, where `U` is unimodular and
`A` is lower triangular with a non-negative diagonal and every entry left of a positive diagonal
entry `d` in `[0, d)`. The columns of `A` generate the same lattice as those of `M`.

## Main definitions

- `HermiteForm` — the pair of matrices
- `HermiteForm.clearRow` — Euclid's algorithm on the entries of a row from the diagonal on
- `HermiteForm.reduceRow` — the entries left of the diagonal brought into their range
- `HermiteForm.ofMatrix` — the form of a square matrix

## Design notes

A turn of `clearRow` brings an entry of least magnitude to the diagonal and subtracts multiples of
its column from those right of it. Everything right of the diagonal is smaller than this entry then,
so the next one has a smaller magnitude and the turns come to an end.
-/

namespace AffineLoops

/-- A triangular matrix with the column operations that produce it. -/
structure HermiteForm where
  /-- The lower triangular form. -/
  triangular : IntMatrix
  /-- The accumulated column operations. -/
  unimodular : IntMatrix
deriving DecidableEq

namespace HermiteForm

open IntMatrix DenseMatrix

/-- Applies one column operation to both matrices. -/
def mapBoth (f : HermiteForm) (op : IntMatrix → IntMatrix) : HermiteForm :=
  ⟨op f.triangular, op f.unimodular⟩

/-- Nothing is left right of the diagonal in row `i`. -/
def isCleared (m : IntMatrix) (i : Nat) : Bool :=
  (positions (i + 1) m.cols).all (m.entry i · = 0)

/-- The magnitude of the next pivot in row `i`, 0 once the row is cleared. -/
def pivotWeight (m : IntMatrix) (i : Nat) : Nat :=
  if isCleared m i then 0 else leastAbs (m.entry i ·) i m.cols

/-- Quotients by the diagonal entry of row `i`, rounded down, for the columns right of it. -/
def rightQuotients (m : IntMatrix) (i j : Nat) : Int :=
  if i < j then Rounding.floor.quotient (m.entry i j) (m.entry i i) else 0

/-- Quotients by the diagonal entry of row `i`, rounded down, for the columns left of it. -/
def leftQuotients (m : IntMatrix) (i j : Nat) : Int :=
  if j < i then Rounding.floor.quotient (m.entry i j) (m.entry i i) else 0

/-- One turn on row `i`: the pivot moves to the diagonal and the entries right of it are reduced
modulo it. -/
def sweepRow (f : HermiteForm) (i : Nat) : HermiteForm :=
  match leastMagnitude? (f.triangular.entry i ·) (positions i f.triangular.cols) with
  | none => f
  | some c =>
    let g := f.mapBoth (·.swapCols i c)
    g.mapBoth (·.subColMultiples i (rightQuotients g.triangular i))

@[simp] theorem rows_sweepRow (f : HermiteForm) (i : Nat) :
    (f.sweepRow i).triangular.rows = f.triangular.rows := by
  unfold sweepRow
  split <;> rfl

@[simp] theorem cols_sweepRow (f : HermiteForm) (i : Nat) :
    (f.sweepRow i).triangular.cols = f.triangular.cols := by
  unfold sweepRow
  split <;> rfl

theorem isCleared_iff {m : IntMatrix} {i : Nat} :
    isCleared m i ↔ ∀ j, i < j → m.entry i j = 0 := by
  simp only [isCleared, List.all_eq_true, mem_positions, decide_eq_true_eq]
  constructor
  · intro h j hij
    by_cases hin : i < m.rows ∧ j < m.cols
    · exact h j ⟨hij, hin.2⟩
    · exact entry_eq_zero hin
  · exact fun h j hj => h j hj.1

/-- There is something left to clear only if an entry right of the diagonal is nonzero. -/
theorem exists_entry_ne_zero {m : IntMatrix} {i : Nat} (h : ¬isCleared m i) :
    ∃ j, i < j ∧ (i < m.rows ∧ j < m.cols) ∧ m.entry i j ≠ 0 := by
  rw [isCleared_iff] at h
  simp only [Classical.not_forall] at h
  obtain ⟨j, hij, hne⟩ := h
  exact ⟨j, hij, Decidable.byContradiction fun hout => hne (entry_eq_zero hout), hne⟩

/-- A turn on row `i` makes every entry right of the diagonal smaller than the pivot. -/
theorem natAbs_sweepRow_lt {f : HermiteForm} {i c j : Nat} (hi : i < f.triangular.rows)
    (hc : leastMagnitude? (f.triangular.entry i ·) (positions i f.triangular.cols) = some c)
    (hij : i < j) (hj : j < f.triangular.cols) :
    ((f.sweepRow i).triangular.entry i j).natAbs < (f.triangular.entry i c).natAbs := by
  obtain ⟨moved, hmoved⟩ : ∃ m, m = f.triangular.swapCols i c := ⟨_, rfl⟩
  have hdiag : moved.entry i i = f.triangular.entry i c := by
    rw [hmoved, entry_swapCols hi (by omega), swapIndex_left]
  have hentry : (f.sweepRow i).triangular.entry i j =
      moved.entry i j - Rounding.floor.quotient (moved.entry i j) (moved.entry i i) *
        moved.entry i i := by
    simp only [sweepRow, hc, mapBoth, ← hmoved]
    rw [entry_subColMultiples (by simpa [hmoved] using hi) (by simpa [hmoved] using hj),
      rightQuotients, if_pos hij]
  rw [hentry, ← hdiag]
  exact Rounding.natAbs_sub_floor_mul_lt _ (hdiag ▸ (leastMagnitude?_eq_some hc).2.1)

/-- A turn makes progress as long as something is left right of the diagonal. -/
theorem pivotWeight_sweepRow_lt {f : HermiteForm} {i : Nat} (h : ¬isCleared f.triangular i) :
    pivotWeight (f.sweepRow i).triangular i < pivotWeight f.triangular i := by
  obtain ⟨j, hij, ⟨hi, hj⟩, hne⟩ := exists_entry_ne_zero h
  cases hc : leastMagnitude? (f.triangular.entry i ·) (positions i f.triangular.cols) with
  | none =>
    exact absurd (leastMagnitude?_eq_none hc j (mem_positions.mpr ⟨by omega, hj⟩)) hne
  | some c =>
    have hpivot : pivotWeight f.triangular i = (f.triangular.entry i c).natAbs := by
      rw [pivotWeight, if_neg h, leastAbs, hc, Option.map_some, Option.getD_some]
    rw [hpivot]
    by_cases hdone : isCleared (f.sweepRow i).triangular i
    · rw [pivotWeight, if_pos hdone]
      exact Int.natAbs_pos.mpr (leastMagnitude?_eq_some hc).2.1
    · -- the next pivot is at most what is left
      obtain ⟨k, hik, ⟨-, hk⟩, hk0⟩ := exists_entry_ne_zero hdone
      rw [pivotWeight, if_neg hdone]
      refine Nat.lt_of_le_of_lt (leastAbs_le (Nat.le_of_lt hik) hk hk0) ?_
      exact natAbs_sweepRow_lt hi hc hik (cols_sweepRow f i ▸ hk)

/-- Turns on row `i` until nothing is left right of the diagonal. -/
def clearRow (i : Nat) (f : HermiteForm) : HermiteForm :=
  if isCleared f.triangular i then f else clearRow i (f.sweepRow i)
termination_by pivotWeight f.triangular i
decreasing_by exact pivotWeight_sweepRow_lt (by assumption)

/-- Makes the diagonal entry of row `i` non-negative. -/
def fixSign (f : HermiteForm) (i : Nat) : HermiteForm :=
  if f.triangular.entry i i < 0 then f.mapBoth (·.negateCol i) else f

/-- Brings row `i` into triangular form. -/
def triangularizeRow (f : HermiteForm) (i : Nat) : HermiteForm :=
  (clearRow i f).fixSign i

/-- Reduces the entries of row `i` left of a nonzero diagonal entry modulo it. -/
def reduceRow (f : HermiteForm) (i : Nat) : HermiteForm :=
  if f.triangular.entry i i = 0 then f
  else f.mapBoth (·.subColMultiples i (leftQuotients f.triangular i))

/-- The Hermite normal form of a square matrix. -/
def ofMatrix (m : IntMatrix) : Except MatrixError HermiteForm :=
  if m.isSquare then
    let rows := List.range m.rows
    let cleared := rows.foldl triangularizeRow ⟨m, identity m.rows⟩
    .ok (rows.foldl reduceRow cleared)
  else .error (.nonSquare m.rows m.cols)

/-- The diagonal of the triangular matrix. -/
def diagonal (f : HermiteForm) : List Int :=
  (List.range f.triangular.rows).map fun i => f.triangular.entry i i

/-- Both matrices, named. -/
def render (f : HermiteForm) : String :=
  "A = " ++ f.triangular.render ++ ", U = " ++ f.unimodular.render

end HermiteForm

end AffineLoops
