import AffineLoops.Lattice.Steps
import AffineLoops.Nest.Basic
/-!
# Bounds of planar nests

For `T = [[p, r], [q, s]]` with determinant `δ`, the iteration behind the loop values `(i, j)` is
`x = (s * i - r * j) / δ` and `y = (p * j - q * i) / δ`. The range of each domain axis is
therefore a range for a multiple of `j` that is affine in `i`. The outer loop spans the projection
of the domain on the first row of `T`; on a sparse image both loops step over the lattice, and the
inner one starts on it.

## Main definitions

- `InnerConstraint` — the range of a multiple of the inner variable
- `InnerConstraint.bounds?` — the bounds on the inner variable itself
- `Nest.derivePlanar` — the nest of any non-singular planar transform
-/

namespace AffineLoops

/-- An affine function of the outer variable. -/
structure OuterForm where
  /-- Coefficient of the outer variable. -/
  slope : Int
  /-- What is added. -/
  constant : Int
deriving DecidableEq

namespace OuterForm

/-- The opposite function. -/
def neg (f : OuterForm) : OuterForm :=
  ⟨-f.slope, -f.constant⟩

/-- The rounded quotient by a positive divisor, as a bound; a constant function is divided at
once, and a division by one disappears. -/
def quotient (f : OuterForm) (divisor : Int) (rounding : Rounding) : Bound :=
  if f.slope = 0 then .const (rounding.quotient f.constant divisor)
  else if divisor = 1 then .affine (.linear [f.slope] f.constant)
  else .affine ⟨[f.slope], f.constant, divisor, rounding⟩

end OuterForm

/-- The condition that `factor` times the inner variable lies between two affine functions of the
outer one. -/
structure InnerConstraint where
  /-- What the inner variable is multiplied with. -/
  factor : Int
  /-- The least value of the product. -/
  least : OuterForm
  /-- The greatest value of the product. -/
  greatest : OuterForm

/-- The bounds on the inner variable, lower and upper, when it occurs in the condition. -/
def InnerConstraint.bounds? (c : InnerConstraint) : Option (Bound × Bound) :=
  if c.factor = 0 then none
  else if 0 < c.factor then
    some (c.least.quotient c.factor .ceil, c.greatest.quotient c.factor .floor)
  else
    some (c.greatest.neg.quotient (-c.factor) .ceil, c.least.neg.quotient (-c.factor) .floor)

namespace Nest

open DenseMatrix

/-- The two conditions that keep the iteration inside a planar domain: first the range of the
second axis, then that of the first. -/
def innerConstraints (domain : Domain) (t : Transform) : List InnerConstraint :=
  let entry (i j : Nat) := t.determinant.sign * t.matrix.entry i j
  let size : Int := t.determinant.natAbs
  let bound (values : Point) (axis : Nat) := (values[axis]?).getD 0
  -- `size` times a coordinate of the iteration, as a difference of the two loop variables
  [⟨entry 0 0, ⟨entry 1 0, bound domain.lower 1 * size⟩,
      ⟨entry 1 0, (bound domain.upper 1 - 1) * size⟩⟩,
    ⟨entry 0 1, ⟨entry 1 1, -(bound domain.upper 0 - 1) * size⟩,
      ⟨entry 1 1, -bound domain.lower 0 * size⟩⟩]

/-- The first coordinates of the images of the corners. -/
def projections (domain : Domain) (t : Transform) : List Int :=
  domain.corners.map fun c => Point.dot ((t.matrix.row? 0).getD []) c

/-- The multiples of the outer stride between the extreme projections. -/
def outerRange (domain : Domain) (t : Transform) (step : Int) : Int × Int :=
  let values := projections domain t
  (Rounding.ceil.quotient (values.min?.getD 0) step * step,
    Rounding.floor.quotient (values.max?.getD 0) step * step)

/-- The bounds of the inner loop; on a sparse lattice the lower one is moved up to it. -/
def innerRange (domain : Domain) (t : Transform) (steps : LatticeSteps) : Bound × Bound :=
  let bounds := (innerConstraints domain t).filterMap InnerConstraint.bounds?
  let lower := Bound.maxOf (bounds.map Prod.fst)
  let upper := Bound.minOf (bounds.map Prod.snd)
  if 1 < steps.innerStep then
    (.aligned lower ⟨[steps.residue], 0, steps.outerStep, .floor⟩ steps.innerStep, upper)
  else (lower, upper)

/-- The nest over the image of a planar domain under a non-singular planar transform. -/
def derivePlanar (domain : Domain) (t : Transform) : Except Error Nest := do
  if t.dim ≠ 2 ∨ domain.dim ≠ 2 then throw (.matrix (.dimensionMismatch 2 t.dim))
  let steps ← LatticeSteps.ofTransform t
  let (outerLower, outerUpper) := outerRange domain t steps.outerStep
  let (innerLower, innerUpper) := innerRange domain t steps
  return {
    domain := domain
    transform := t
    loops := [⟨loopVar 0, .const outerLower, .const outerUpper, steps.outerStep⟩,
      ⟨loopVar 1, innerLower, innerUpper, steps.innerStep⟩]
    inverse := t.inverse
    body := none }

end Nest

end AffineLoops
