import AffineLoops.Error
import AffineLoops.Grid.Basic
/-!
# Cell expressions

The right-hand side of an update: cells of the main grid and of a read-only auxiliary grid at fixed
offsets from the iteration, literals, and the operations on them. Sums and differences wrap around
at 64 bits; maxima and minima compare signed values.

## Main definitions

- `CellExpr` — expressions
- `CellExpr.eval` — the value at an iteration
- `CellExpr.reads` — the offsets read from the main grid
- `CellExpr.render` — the written form, over given names of the grids, axes and functions

## Design notes

The written form puts parentheses around the right operand of a difference and nowhere else. Read
with left-associative sums it stands for another tree, but for the same value modulo 2 ^ 64.
-/

namespace AffineLoops

/-- An expression over the cells around an iteration. -/
inductive CellExpr where
  /-- The main grid at an offset. -/
  | read (offset : Point)
  /-- The auxiliary grid at an offset. -/
  | aux (offset : Point)
  | const (value : Cell)
  /-- The wrapping sum. -/
  | add (lhs rhs : CellExpr)
  /-- The wrapping difference. -/
  | sub (lhs rhs : CellExpr)
  /-- The larger operand. -/
  | max (lhs rhs : CellExpr)
  /-- The smaller operand. -/
  | min (lhs rhs : CellExpr)
deriving DecidableEq, Inhabited

/-- The names that a written expression uses. -/
structure CellNames where
  /-- The main grid. -/
  array : String := "a"
  /-- The auxiliary grid. -/
  aux : String := "aux"
  /-- The coordinates of the iteration. -/
  indices : List String := ["i", "j", "k", "l"]
  /-- The function that gives the larger of its arguments. -/
  maximum : String := "max"
  /-- The function that gives the smaller of its arguments. -/
  minimum : String := "min"

namespace CellExpr

/-- The auxiliary grid at a point; without such a grid there is nothing to read. -/
def readAux (aux : Option Grid) (p : Point) : Except Error Cell :=
  match aux with
  | some grid => (grid.get p).mapError .domain
  | none => .error (.domain (.outOfBounds p .missingGrid))

/-- The value of an expression at the iteration `p`. The left operand is evaluated first. -/
def eval (grid : Grid) (aux : Option Grid) (p : Point) : CellExpr → Except Error Cell
  | .read offset => (grid.get (p.shift offset)).mapError .domain
  | .aux offset => readAux aux (p.shift offset)
  | .const value => .ok value
  | .add a b => do return (← eval grid aux p a) + (← eval grid aux p b)
  | .sub a b => do return (← eval grid aux p a) - (← eval grid aux p b)
  | .max a b => do return Max.max (← eval grid aux p a) (← eval grid aux p b)
  | .min a b => do return Min.min (← eval grid aux p a) (← eval grid aux p b)

/-- The offsets read from the main grid, from left to right. -/
def reads : CellExpr → List Point
  | .read offset => [offset]
  | .aux _ => []
  | .const _ => []
  | .add a b => a.reads ++ b.reads
  | .sub a b => a.reads ++ b.reads
  | .max a b => a.reads ++ b.reads
  | .min a b => a.reads ++ b.reads

/-- One subscript: the coordinate's name with the offset, unless that is zero. -/
def subscript (name : String) (offset : Int) : String :=
  if offset = 0 then "[" ++ name ++ "]"
  else if 0 < offset then "[" ++ name ++ " + " ++ toString offset ++ "]"
  else "[" ++ name ++ " - " ++ toString offset.natAbs ++ "]"

/-- One subscript per axis, on the axes that have both a name and an offset. -/
def subscripts (names : List String) (offset : Point) : String :=
  String.join (List.zipWith subscript names offset)

/-- The written form of an expression. -/
def render (names : CellNames) : CellExpr → String
  | .read offset => names.array ++ subscripts names.indices offset
  | .aux offset => names.aux ++ subscripts names.indices offset
  | .const value => toString value.toInt
  | .add a b => render names a ++ " + " ++ render names b
  | .sub a b => render names a ++ " - (" ++ render names b ++ ")"
  | .max a b => names.maximum ++ "(" ++ render names a ++ ", " ++ render names b ++ ")"
  | .min a b => names.minimum ++ "(" ++ render names a ++ ", " ++ render names b ++ ")"

end CellExpr

end AffineLoops
