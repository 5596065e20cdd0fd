import AffineLoops.Domain
/-!
# Grids

A grid is an array of 64-bit cells indexed by the points of a domain, stored in row-major order.
Its shape never changes: writing a cell replaces one value and nothing else.

## Main definitions

- `Grid` — a shape and the cells
- `Grid.WellFormed` — there is one cell per point
- `Grid.zeros`, `Grid.ofFn`, `Grid.repeating` — construction
- `Grid.get`, `Grid.set` — one cell, by its point
- `Grid.diff?` — the cells at which two grids of one shape disagree
-/

namespace AffineLoops

/-- The content of a cell: sums and differences wrap around at 64 bits. -/
abbrev Cell := Int64

/-- An array of cells indexed by the points of a domain. -/
structure Grid where
  /-- The points that have a cell. -/
  shape : Domain
  /-- The cells in row-major order. -/
  cells : Array Cell
deriving DecidableEq, Inhabited

/-- A cell at which two grids disagree. -/
structure CellDiff where
  point : Point
  left : Cell
  right : Cell
deriving DecidableEq

namespace Grid

/-- There is exactly one cell per point of the shape. -/
def WellFormed (g : Grid) : Prop :=
  g.cells.size = g.shape.size

instance (g : Grid) : Decidable g.WellFormed :=
  inferInstanceAs (Decidable (_ = _))

/-- The grid with the value of `f` in every cell. -/
def ofFn (shape : Domain) (f : Point → Cell) : Grid :=
  ⟨shape, (shape.points.map f).toArray⟩

/-- The grid of zeros. -/
def zeros (shape : Domain) : Grid :=
  ⟨shape, Array.replicate shape.size 0⟩

/-- The grid whose cells, in row-major order, run through the given ones again and again. -/
def repeating (shape : Domain) (pattern : Array Cell) : Grid :=
  ⟨shape, Array.ofFn fun k : Fin shape.size => (pattern[k.val % pattern.size]?).getD 0⟩

/-- The error of looking up a point that has no cell. -/
def outside (g : Grid) (p : Point) : DomainError :=
  .outOfBounds p (.box g.shape)

/-- The content of a cell. -/
def get (g : Grid) (p : Point) : Except DomainError Cell :=
  match g.shape.linearIndex? p with
  | none => .error (g.outside p)
  | some k => .ok (g.cells.getD k 0)

/-- The grid with the cell at a row-major position replaced. -/
def setIndex (g : Grid) (k : Nat) (value : Cell) : Grid :=
  { g with cells := g.cells.setIfInBounds k value }

/-- The grid with one cell replaced. -/
def set (g : Grid) (p : Point) (value : Cell) : Except DomainError Grid :=
  match g.shape.linearIndex? p with
  | none => .error (g.outside p)
  | some k => .ok (g.setIndex k value)

/-- The disagreement at one point, if there is one. -/
def cellDiff? (p : Point) (left right : Cell) : Option CellDiff :=
  if left = right then none else some ⟨p, left, right⟩

/-- The cells at which two grids disagree, in row-major order; none when the shapes differ. -/
def diff? (g h : Grid) : Option (List CellDiff) :=
  if g.shape = h.shape then
    some ((g.shape.points.zip (g.cells.toList.zip h.cells.toList)).filterMap
      fun (p, l, r) => cellDiff? p l r)
  else none

end Grid

end AffineLoops
