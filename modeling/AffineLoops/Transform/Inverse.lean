import AffineLoops.Error
import AffineLoops.Text.Linear
/-!
# Inverse maps

The inverse of a transform with matrix `T` maps a tuple `q` of loop values back to the iteration
`adj(T) * q / det(T)`. It is exact: where the division leaves a remainder, `q` is not on the image
lattice and the map fails.

## Main definitions

- `InverseMap` — the adjugate and the determinant
- `Transform.inverse` — the inverse map of a transform
- `InverseMap.apply` — the iteration behind a tuple of loop values
- `InverseMap.formulas` — the iteration's coordinates as expressions in the loop variables
-/

namespace AffineLoops

/-- A map `q ↦ adjugate * q / divisor`, defined where the division is exact. -/
structure InverseMap where
  /-- What the loop values are multiplied with. -/
  adjugate : IntMatrix
  /-- What the product is divided by. -/
  divisor : Int
deriving DecidableEq

/-- The inverse map of a transform. -/
def Transform.inverse (t : Transform) : InverseMap :=
  ⟨t.matrix.adjugate?.getD (IntMatrix.identity t.dim), t.determinant⟩

namespace InverseMap

/-- The identity on `n` axes. -/
def identity (n : Nat) : InverseMap :=
  ⟨IntMatrix.identity n, 1⟩

/-- Number of axes. -/
def dim (f : InverseMap) : Nat :=
  f.adjugate.rows

/-- One scaled coordinate of the point `q`, divided by the divisor. -/
def divide (f : InverseMap) (q : Point) (scaled : Int) : Except Error Int :=
  if f.divisor = 0 then .error (.fault .divisionByZero)
  else if scaled.tmod f.divisor = 0 then .ok (scaled.tdiv f.divisor)
  else .error (.derivation (.offLattice q scaled f.divisor))

/-- The iteration that a tuple of loop values stands for. -/
def apply (f : InverseMap) (q : Point) : Except Error Point :=
  match f.adjugate.mulVec? q with
  | none => .error (.derivation (.inverseDimension f.dim q.length))
  | some scaled => scaled.mapM (f.divide q)

/-- One coordinate of the iteration, as an expression in the named loop variables. -/
def formula (f : InverseMap) (names : List String) (row : List Int) : String :=
  let numerator := Text.linear (row.map (· * f.divisor.sign)) names 0
  if f.divisor.natAbs = 1 then numerator
  else "(" ++ numerator ++ ") / " ++ toString f.divisor.natAbs

/-- Every coordinate of the iteration, as an expression in the named loop variables. -/
def formulas (f : InverseMap) (names : List String) : List String :=
  f.adjugate.toRows.map (f.formula names)

end InverseMap

end AffineLoops
