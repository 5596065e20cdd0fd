import AffineLoops.Lattice.Hermite
import AffineLoops.Transform.Basic
/-!
# Steps of a planar lattice

The image of the integer plane under a non-singular transform is a lattice. Its Hermite normal
form `[[o, 0], [r, s]]` is a triangular basis: the points are `(o * k, r * k + s * m)`, so an outer
loop of stride `o` meets, at its `k`-th value, the inner values congruent to `r * k` modulo `s`.

## Main definitions

- `LatticeSteps` — the three numbers of the basis
- `LatticeSteps.ofTransform` — the basis of a planar transform
- `LatticeSteps.contains`, `LatticeSteps.index` — membership and index in the plane
-/

namespace AffineLoops

/-- The triangular basis of a lattice in the plane. -/
structure LatticeSteps where
  /-- Stride of the outer coordinate. -/
  outerStep : Int
  /-- Displacement of the inner coordinate per outer stride. -/
  residue : Int
  /-- Stride of the inner coordinate. -/
  innerStep : Int
deriving DecidableEq

namespace LatticeSteps

/-- All integer points of the plane. -/
def dense : LatticeSteps :=
  ⟨1, 0, 1⟩

/-- The image lattice of a planar transform. -/
def ofTransform (t : Transform) : Except MatrixError LatticeSteps :=
  if t.dim ≠ 2 then .error (.dimensionMismatch 2 t.dim)
  else if t.isUnimodular then .ok dense
  else do
    let form ← HermiteForm.ofMatrix t.matrix
    let a := form.triangular
    return ⟨a.entry 0 0, a.entry 1 0, a.entry 1 1⟩

/-- Whether a point of the plane lies on the lattice; a stride of zero is a fault once a division
by it is called for. -/
def contains (s : LatticeSteps) (outer inner : Int) : Except Fault Bool :=
  if s.outerStep = 0 then .error .divisionByZero
  else if outer.tmod s.outerStep ≠ 0 then .ok false
  else if s.innerStep = 0 then .error .divisionByZero
  else .ok ((inner - s.residue * outer.tdiv s.outerStep).tmod s.innerStep == 0)

/-- Index of the lattice in the plane. -/
def index (s : LatticeSteps) : Int :=
  s.outerStep * s.innerStep

end LatticeSteps

end AffineLoops
