import AffineLoops.Matrix.Basic
/-!
# Affine accesses

A statement executed at iteration `p` touches the array cell `A * p + w`, with a fixed matrix `A`
and offset `w` for every access it makes.

## Main definitions

- `AffineAccess` — the matrix and the offset
- `AffineAccess.uniform` — an access at a fixed distance from the iteration
-/

namespace AffineLoops

/-- An array access whose cell is an affine function of the iteration. -/
structure AffineAccess where
  /-- What the iteration is multiplied with. -/
  matrix : IntMatrix
  /-- What is added. -/
  offset : Point
deriving DecidableEq

namespace AffineAccess

/-- The access to the cell at a fixed offset from the iteration. -/
def uniform (offset : Point) : AffineAccess :=
  ⟨IntMatrix.identity offset.length, offset⟩

/-- The access as a function of the iteration `p`. -/
def render (a : AffineAccess) : String :=
  a.matrix.render ++ " * p + " ++ a.offset.render

end AffineAccess

end AffineLoops
