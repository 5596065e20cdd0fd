import AffineLoops.Lattice.Diagonal
import AffineLoops.Proofs.Matrix.View
/-!
# Systems with the identity matrix

The diagonal form of the identity is found in one round for every diagonal position, and its
operations are all trivial. So the system `x = b` is solved by its right-hand side.

## Main definitions

- `DiagonalForm.ofMatrix?_identity` — the form of the identity
- `solve_identity` — the solution of the trivial system
-/

namespace AffineLoops

open Matrix DenseMatrix IntMatrix

namespace DenseMatrix

variable {α : Type} [OfNat α 0]

theorem swapIndex_self (a k : ℕ) : swapIndex a a k = k := by
  unfold swapIndex
  split <;> simp_all

/-- Exchanging a row with itself. -/
theorem swapRows_self (m : DenseMatrix α) (a : ℕ) : m.swapRows a a = m :=
  ofFn_eq fun i _ j _ => by rw [swapIndex_self]

end DenseMatrix

namespace IntMatrix

/-- Exchanging a column with itself. -/
theorem swapCols_self (m : IntMatrix) (a : ℕ) : m.swapCols a a = m :=
  ofFn_eq fun i _ j _ => by rw [swapIndex_self]

theorem entry_identity {n i j : ℕ} (hi : i < n) (hj : j < n) :
    (identity n).entry i j = if i = j then 1 else 0 := by
  rw [identity, entry_ofFn, if_pos ⟨hi, hj⟩]

theorem positions_eq_cons {k n : ℕ} (h : k < n) : positions k n = k :: positions (k + 1) n := by
  rw [positions, positions, show n - k = n - (k + 1) + 1 by omega, List.range'_succ]

/-- The only nonzero entry of a row or column of the identity is the diagonal one. -/
theorem filter_positions_identity {n k : ℕ} (hk : k < n) {f : ℕ → ℤ}
    (hf : ∀ j < n, f j ≠ 0 ↔ j = k) : (positions k n).filter (f · ≠ 0) = [k] := by
  have htail : (positions (k + 1) n).filter (f · ≠ 0) = [] := by
    rw [List.filter_eq_nil_iff]
    intro j hj
    have hrange := mem_positions.mp hj
    have hne : ¬f j ≠ 0 := fun h0 => by
      have hjk := (hf j hrange.2).mp h0
      omega
    simpa using hne
  have hhead : f k ≠ 0 := (hf k hk).mpr rfl
  rw [positions_eq_cons hk, List.filter_cons_of_pos (by simpa using hhead), htail]

theorem row_identity_ne_zero_iff {n k : ℕ} (hk : k < n) :
    ∀ j < n, (identity n).entry k j ≠ 0 ↔ j = k := fun j hj => by
  rw [entry_identity hk hj]
  simp [eq_comm]

theorem col_identity_ne_zero_iff {n k : ℕ} (hk : k < n) :
    ∀ i < n, (identity n).entry i k ≠ 0 ↔ i = k := fun i hi => by
  rw [entry_identity hi hk]
  simp

theorem rowPivot?_identity {n k : ℕ} (hk : k < n) : (identity n).rowPivot? k k = none := by
  simp only [rowPivot?, cols_identity,
    filter_positions_identity hk (row_identity_ne_zero_iff hk), List.length_singleton]
  rfl

theorem colPivot?_identity {n k : ℕ} (hk : k < n) : (identity n).colPivot? k k = none := by
  simp only [colPivot?, rows_identity,
    filter_positions_identity hk (col_identity_ne_zero_iff hk), List.length_singleton]
  rfl

theorem mulVec?_identity {n : ℕ} {v : Point} (hv : v.length = n) :
    (identity n).mulVec? v = some v := by
  rw [mulVec?_eq_some (rows_identity n) (cols_identity n) hv, toMatrix_identity, Matrix.one_mulVec, Point.ofFn_toVec hv]

end IntMatrix

namespace DiagonalForm

variable {n k : ℕ}

/-- The form in which nothing has been done. -/
def trivial (n : ℕ) : DiagonalForm :=
  ⟨identity n, identity n, identity n⟩

theorem find?_eq_some_of_filter {l : List ℕ} {p : ℕ → Bool} (h : l.filter p = [k]) :
    l.find? p = some k := by
  rw [← List.head?_filter, h, List.head?_cons]

theorem bringCol_trivial (hk : k < n) : (trivial n).bringCol k = trivial n := by
  have hfind : (positions k (trivial n).diagonal.cols).find?
      ((trivial n).diagonal.entry k · ≠ 0) = some k :=
    find?_eq_some_of_filter (filter_positions_identity hk (row_identity_ne_zero_iff hk))
  rw [bringCol, hfind]
  simp only [onCols, trivial, swapCols_self]

theorem bringRow_trivial (hk : k < n) : (trivial n).bringRow k = trivial n := by
  have hfind : (positions k (trivial n).diagonal.rows).find?
      ((trivial n).diagonal.entry · k ≠ 0) = some k :=
    find?_eq_some_of_filter (filter_positions_identity hk (col_identity_ne_zero_iff hk))
  rw [bringRow, hfind]
  simp only [onRows, trivial, swapRows_self]

/-- A position of the identity is settled from the start. -/
theorem turn_trivial (hk : k < n) : (trivial n).turn k = (trivial n, true) := by
  have hrow : (trivial n).diagonal.rowPivot? k k = none := rowPivot?_identity hk
  have hcol : (trivial n).diagonal.colPivot? k k = none := colPivot?_identity hk
  simp only [turn, hrow, bringCol_trivial hk, turnColumn, hcol, bringRow_trivial hk,
    Option.isNone_none]

/-- One round for every position is enough for the identity. -/
theorem ofMatrix?_identity (rounds n : ℕ) :
    ofMatrix? (rounds + 1) (identity n) = some (trivial n) := by
  have hsettle : ∀ k < n, settle? k (rounds + 1) (trivial n) = some (trivial n) := by
    intro k hk
    rw [settle?, turn_trivial hk]
  have hloop : ∀ l : List ℕ, (∀ k ∈ l, k < n) →
      l.foldlM (fun f k => settle? k (rounds + 1) f) (trivial n) = some (trivial n) := by
    intro l
    induction l with
    | nil => exact fun _ => rfl
    | cons k l ih =>
      intro hl
      rw [List.foldlM_cons, hsettle k (hl k List.mem_cons_self), Option.bind_eq_bind,
        Option.bind_some]
      exact ih fun j hj => hl j (List.mem_cons_of_mem k hj)
  refine hloop _ fun k hk => ?_
  have hmin := List.mem_range.mp hk
  simpa [identity] using hmin

theorem solveCoordinate?_one (c : ℤ) : solveCoordinate? 1 c = some c := by
  simp [solveCoordinate?]

theorem mapM_solveCoordinate?_trivial {c : Point} (start : ℕ) (h : start + c.length ≤ n) :
    (c.zipIdx start).mapM (fun (ci, i) =>
      solveCoordinate? ((trivial n).diagonal.entry i i) ci) = some c := by
  induction c generalizing start with
  | nil => rfl
  | cons x c ih =>
    rw [List.length_cons] at h
    have hentry : (trivial n).diagonal.entry start start = 1 := by
      rw [trivial, entry_identity (by omega) (by omega), if_pos rfl]
    rw [List.zipIdx_cons, List.mapM_cons]
    simp only [hentry, solveCoordinate?_one, ih (start + 1) (by omega),
      Option.bind_eq_bind, Option.bind_some, Option.pure_def]

theorem solveDiagonal?_trivial (values : Point) :
    (trivial values.length).solveDiagonal? values = some values := by
  rw [solveDiagonal?, mapM_solveCoordinate?_trivial 0 (by omega)]
  change some ((List.range values.length).map fun j => (values[j]?).getD 0) = some values
  rw [Option.some_inj]
  apply List.ext_getElem
  · simp
  · intro j h₁ h₂
    simp [h₂]

end DiagonalForm

/-- The system with the identity matrix has its right-hand side as the solution. -/
theorem solve_identity (rounds : ℕ) (b : Point) :
    solve (rounds + 1) (identity b.length) b = .ok (.found b) := by
  have hrows : (identity b.length).rows = b.length := rfl
  have hleft : (DiagonalForm.trivial b.length).left.mulVec? b = some b := mulVec?_identity rfl
  have hright : (DiagonalForm.trivial b.length).right.mulVec? b = some b := mulVec?_identity rfl
  rw [solve, if_neg (not_not_intro hrows), DiagonalForm.ofMatrix?_identity]
  simp only [hleft, hright, DiagonalForm.solveDiagonal?_trivial, Option.bind_eq_bind,
    Option.bind_some]

end AffineLoops
