import AffineLoops.Rounding
import AffineLoops.Matrix.Elementary
import AffineLoops.Matrix.Pivot
/-!
# Diagonal form and integer linear systems

For a matrix `M` of any shape the form is `(L, D, R)` with `L * M * R = D`, where `L` and `R` are
unimodular and `D` has no nonzero entry off its diagonal. The diagonal entries need not divide one
another. An integer system `M x = b` is solved through the form, one coordinate at a time.

## Main definitions

- `DiagonalForm` — the three matrices
- `DiagonalForm.turn` — one round of row and column clearing at a diagonal position
- `DiagonalForm.ofMatrix?` — the form, when every position settles within the allowed rounds
- `Solution`, `solve` — the outcome of an integer linear system

## Design notes

The pivots are chosen by magnitude alone, and clearing a column can undo the clearing of its row:
there are matrices on which the rounds repeat for ever. The number of rounds allowed for each
diagonal position is therefore an argument, and running out of them is an outcome of its own.
-/

namespace AffineLoops

/-- A diagonal matrix with the row and column operations that produce it. -/
structure DiagonalForm where
  /-- The accumulated row operations. -/
  left : IntMatrix
  /-- The diagonal matrix, of the shape of the given one. -/
  diagonal : IntMatrix
  /-- The accumulated column operations. -/
  right : IntMatrix
deriving DecidableEq

namespace DiagonalForm

open IntMatrix DenseMatrix

/-- Applies a row operation. -/
def onRows (f : DiagonalForm) (op : IntMatrix → IntMatrix) : DiagonalForm :=
  { f with left := op f.left, diagonal := op f.diagonal }

/-- Applies a column operation. -/
def onCols (f : DiagonalForm) (op : IntMatrix → IntMatrix) : DiagonalForm :=
  { f with diagonal := op f.diagonal, right := op f.right }

/-- Quotients, rounded down, of row `k` by its entry in column `c`, from the diagonal on. -/
def rowQuotients (m : IntMatrix) (k c j : Nat) : Int :=
  if k ≤ j ∧ j ≠ c then Rounding.floor.quotient (m.entry k j) (m.entry k c) else 0

/-- Quotients, rounded down, of column `k` by its entry in row `r`, from the diagonal on. -/
def colQuotients (m : IntMatrix) (k r i : Nat) : Int :=
  if k ≤ i ∧ i ≠ r then Rounding.floor.quotient (m.entry i k) (m.entry r k) else 0

/-- Moves the first nonzero entry of row `k`, from the diagonal on, to the diagonal. -/
def bringCol (f : DiagonalForm) (k : Nat) : DiagonalForm :=
  match (positions k f.diagonal.cols).find? (f.diagonal.entry k · ≠ 0) with
  | some c => f.onCols (·.swapCols k c)
  | none => f

/-- Moves the first nonzero entry of column `k`, from the diagonal on, to the diagonal. -/
def bringRow (f : DiagonalForm) (k : Nat) : DiagonalForm :=
  match (positions k f.diagonal.rows).find? (f.diagonal.entry · k ≠ 0) with
  | some r => f.onRows (·.swapRows k r)
  | none => f

/-- The second half of a round, once row `k` holds at most one nonzero entry. -/
def turnColumn (f : DiagonalForm) (k : Nat) : DiagonalForm × Bool :=
  match f.diagonal.colPivot? k k with
  | some r => (f.onRows (·.subRowMultiples r (colQuotients f.diagonal k r)), false)
  | none =>
    let g := f.bringRow k
    -- the exchange may have brought a row with several entries to position `k`
    (g, (g.diagonal.rowPivot? k k).isNone)

/-- One round at diagonal position `k`: row `k` is reduced by its pivot, or, if nothing is left to
reduce there, column `k` is. The flag says that the position is settled. -/
def turn (f : DiagonalForm) (k : Nat) : DiagonalForm × Bool :=
  match f.diagonal.rowPivot? k k with
  | some c => (f.onCols (·.subColMultiples c (rowQuotients f.diagonal k c)), false)
  | none => (f.bringCol k).turnColumn k

/-- Rounds at position `k` until it is settled, if it is within so many. -/
def settle? (k : Nat) : Nat → DiagonalForm → Option DiagonalForm
  | 0, _ => none
  | rounds + 1, f =>
    match f.turn k with
    | (g, true) => some g
    | (g, false) => settle? k rounds g

/-- The diagonal form, when every diagonal position settles within the allowed rounds. -/
def ofMatrix? (rounds : Nat) (m : IntMatrix) : Option DiagonalForm :=
  (List.range (min m.rows m.cols)).foldlM (fun f k => settle? k rounds f)
    ⟨identity m.rows, m, identity m.cols⟩

end DiagonalForm

/-- The outcome of an integer linear system. -/
inductive Solution where
  /-- An integer vector that satisfies every equation. -/
  | found (x : Point)
  /-- No integer vector satisfies all equations. -/
  | unsolvable
  /-- The diagonal form was not reached within the allowed rounds. -/
  | unfinished
deriving DecidableEq

/-- One coordinate of a diagonal system `d * y = c`, if an integer satisfies it. -/
def solveCoordinate? (d c : Int) : Option Int :=
  if d = 0 then (if c = 0 then some 0 else none)
  else if c.tmod d = 0 then some (c.tdiv d) else none

namespace DiagonalForm

open IntMatrix DenseMatrix

/-- Solves `D y = c` for the diagonal matrix: one equation per row, one unknown per column, and
the unknowns without an equation are zero. -/
def solveDiagonal? (f : DiagonalForm) (c : Point) : Option Point := do
  let ys ← c.zipIdx.mapM fun (ci, i) => solveCoordinate? (f.diagonal.entry i i) ci
  return (List.range f.diagonal.cols).map fun j => (ys[j]?).getD 0

end DiagonalForm

/-- Looks for an integer vector `x` with `a x = b`. -/
def solve (rounds : Nat) (a : IntMatrix) (b : Point) : Except MatrixError Solution :=
  if a.rows ≠ b.length then .error (.dimensionMismatch a.rows b.length)
  else
    match DiagonalForm.ofMatrix? rounds a with
    | none => .ok .unfinished
    | some f =>
      let solution? := do
        let c ← f.left.mulVec? b
        let y ← f.solveDiagonal? c
        f.right.mulVec? y
      .ok (match solution? with
        | some x => .found x
        | none => .unsolvable)

end AffineLoops
