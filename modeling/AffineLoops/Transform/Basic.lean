import AffineLoops.Matrix.Determinant
import AffineLoops.Matrix.Elementary
/-!
# Integer transforms

A transform maps an iteration `p` to `T * p`, where `T` is square and non-singular. The loop nests
of this library visit the image of a domain under a transform in lexicographic order.

## Main definitions

- `Transform` — a matrix with its determinant
- `Transform.ofMatrix` — any non-singular square matrix
- `Transform.identity`, `Transform.interchange`, `Transform.skew` — the elementary transforms
- `TransformClass`, `Transform.classify` — what decides how loop bounds are derived
-/

namespace AffineLoops

/-- The classes of transforms that are treated differently by the derivation of bounds. -/
inductive TransformClass where
  | identity
  /-- One 1 or -1 in every row and column: axes are exchanged and reversed. -/
  | permutation
  /-- Determinant 1 or -1: the image is dense. -/
  | unimodular
  /-- Any other determinant: the image is a sparse lattice. -/
  | lattice
deriving DecidableEq, Inhabited

/-- The name of a class. -/
def TransformClass.render : TransformClass → String
  | .identity => "identity"
  | .permutation => "permutation"
  | .unimodular => "unimodular"
  | .lattice => "lattice"

/-- A square non-singular matrix, with its determinant. -/
structure Transform where
  matrix : IntMatrix
  determinant : Int
deriving DecidableEq

namespace Transform

open IntMatrix DenseMatrix

/-- The transform of a matrix, which must be square and non-singular. -/
def ofMatrix (m : IntMatrix) : Except MatrixError Transform :=
  match m.determinant? with
  | none => .error (.nonSquare m.rows m.cols)
  | some det => if det = 0 then .error .singular else .ok ⟨m, det⟩

/-- The transform of a matrix given by its rows. -/
def ofRows (rows : List (List Int)) : Except MatrixError Transform := do
  ofMatrix (← IntMatrix.ofRows rows)

/-- The identity on `n` axes. -/
def identity (n : Nat) : Transform :=
  ⟨IntMatrix.identity n, 1⟩

/-- The exchange of the axes `a` and `b`. -/
def interchange (n a b : Nat) : Except Fault Transform := do
  let m ← (IntMatrix.identity n).swapCols? a b
  return ⟨m, if a = b then 1 else -1⟩

/-- Adds `factor` times the axis `source` to the axis `target`; nothing moves if these are the same
axis or one of them does not exist. -/
def skew (n target source : Nat) (factor : Int) : Transform :=
  let m := IntMatrix.identity n
  ⟨if target = source then m else m.set target source factor, 1⟩

/-- Number of axes. -/
def dim (t : Transform) : Nat :=
  t.matrix.rows

/-- The determinant is 1 or -1. -/
def isUnimodular (t : Transform) : Bool :=
  t.determinant.natAbs == 1

/-- The most special class that the transform belongs to. -/
def classify (t : Transform) : TransformClass :=
  if t.matrix = IntMatrix.identity t.dim then .identity
  else if t.matrix.isSignedPermutation then .permutation
  else if t.isUnimodular then .unimodular
  else .lattice

/-- The image of a point; empty when the point has the wrong number of coordinates. -/
def apply (t : Transform) (p : Point) : Point :=
  (t.matrix.mulVec? p).getD []

/-- The matrix, written out. -/
def render (t : Transform) : String :=
  t.matrix.render

end Transform

end AffineLoops
