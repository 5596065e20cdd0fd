import AffineLoops.Matrix.Elementary
/-!
# Determinant and adjugate

Both are computed by elimination over the rationals, where every step is exact. In each column the
row of largest magnitude on or below the diagonal is moved up and multiples of it are subtracted
from other rows: from those below it for the determinant, and from all others, in a table with the
identity to its right, for the inverse. The adjugate is the inverse times the determinant. Sizes up
to two are computed directly.

## Main definitions

- `DenseMatrix.pivotRow`, `DenseMatrix.bringPivot` — the row that a column is cleared with
- `DenseMatrix.eliminate` — the determinant of a square table of rationals
- `DenseMatrix.reduce?` — a table whose leading square part has become the identity
- `IntMatrix.determinant?`, `IntMatrix.adjugate?` — `none` unless the matrix is square (and, for the
  adjugate, non-singular)
-/

namespace AffineLoops

/-- A rational number without its fractional part. -/
def truncate (x : Rat) : Int :=
  x.num.tdiv x.den

namespace DenseMatrix

/-- The first row from `k` on in which column `k` has its largest magnitude. -/
def pivotRow (m : DenseMatrix Rat) (k : Nat) : Nat :=
  (List.range' (k + 1) (m.rows - (k + 1))).foldl
    (fun best i => if (m.entry best k).abs < (m.entry i k).abs then i else best) k

/-- The table with the pivot row of column `k` exchanged with row `k`. -/
def bringPivot (m : DenseMatrix Rat) (k : Nat) : DenseMatrix Rat :=
  m.swapRows k (m.pivotRow k)

/-- Clears column `k` below the diagonal with multiples of row `k`. -/
def clearBelow (m : DenseMatrix Rat) (k : Nat) : DenseMatrix Rat :=
  m.subRowMultiples k fun i => if k < i then m.entry i k / m.entry k k else 0

/-- A table on its way to triangular form, with the product of the pivots so far. The sign of the
product changes whenever two rows are exchanged. -/
structure Elimination where
  /-- The rows that are left and those that are done. -/
  table : DenseMatrix Rat
  /-- The signed product of the pivots. -/
  product : Rat

/-- One column of the elimination, unless it has no pivot. -/
def Elimination.step? (s : Elimination) (k : Nat) : Option Elimination :=
  let m := s.table.bringPivot k
  if m.entry k k = 0 then none
  else
    let signed := if s.table.pivotRow k = k then s.product else -s.product
    some ⟨m.clearBelow k, signed * m.entry k k⟩

/-- The determinant of a square table; a column without a pivot makes it zero. -/
def eliminate (m : DenseMatrix Rat) : Rat :=
  match (List.range m.rows).foldlM Elimination.step? ⟨m, 1⟩ with
  | some s => s.product
  | none => 0

/-- The table with the identity appended to its right. -/
def augment (m : DenseMatrix Rat) : DenseMatrix Rat :=
  ofFn m.rows (2 * m.rows) fun i j =>
    if j < m.rows then m.entry i j else if j = m.rows + i then 1 else 0

/-- Makes the diagonal entry of column `k` one and all other entries of the column zero, unless the
column has no pivot. -/
def reduceColumn? (m : DenseMatrix Rat) (k : Nat) : Option (DenseMatrix Rat) :=
  let m := m.bringPivot k
  if m.entry k k = 0 then none
  else
    let m := m.divideRow k (m.entry k k)
    some (m.subRowMultiples k fun i => if i = k then 0 else m.entry i k)

/-- The table after its leading square part has become the identity, if it can. -/
def reduce? (m : DenseMatrix Rat) : Option (DenseMatrix Rat) :=
  (List.range m.rows).foldlM reduceColumn? m

end DenseMatrix

namespace IntMatrix

open DenseMatrix

/-- The entries as rational numbers. -/
def toRat (m : IntMatrix) : DenseMatrix Rat :=
  DenseMatrix.map (fun x : Int => (x : Rat)) m

/-- The determinant of a table that is taken to be square. -/
def det (m : IntMatrix) : Int :=
  match m.rows with
  | 0 => 1
  | 1 => m.entry 0 0
  | 2 => m.entry 0 0 * m.entry 1 1 - m.entry 0 1 * m.entry 1 0
  | _ => truncate (eliminate m.toRat)

/-- The determinant, when the matrix is square. -/
def determinant? (m : IntMatrix) : Option Int :=
  if m.isSquare then some m.det else none

/-- The determinant is 1 or -1. -/
def isUnimodular (m : IntMatrix) : Bool :=
  m.determinant? == some 1 || m.determinant? == some (-1)

/-- The right half of a reduced table times a number, when all its entries are integers. -/
def scaledHalf? (m : DenseMatrix Rat) (scale : Int) : Option IntMatrix :=
  let value (i j : Nat) : Rat := m.entry i (m.rows + j) * scale
  if (List.range m.rows).all fun i => (List.range m.rows).all fun j => (value i j).den == 1 then
    some (ofFn m.rows m.rows fun i j => truncate (value i j))
  else none

/-- The adjugate of a non-singular square matrix: the determinant times its inverse. -/
def adjugate? (m : IntMatrix) : Option IntMatrix := do
  let det ← m.determinant?
  if det = 0 then none
  else if m.rows = 2 then
    some (ofFn 2 2 fun i j => if i = j then m.entry (1 - i) (1 - j) else -m.entry i j)
  else scaledHalf? (← reduce? (augment m.toRat)) det

end IntMatrix

end AffineLoops
