import AffineLoops.Nest.Basic
/-!
# Bounds of permuted nests

A signed permutation maps every axis onto exactly one new axis, possibly reversed. The bounds of a
new loop are the constant range of the axis behind it, negated and flipped when that is reversed.

## Main definitions

- `Nest.permutedRange` — the range of one new loop
- `Nest.derivePermuted` — the nest of a signed permutation, in any dimension
-/

namespace AffineLoops.Nest

open DenseMatrix

/-- The bounds, both included, of the loop for one row of a signed permutation matrix. -/
def permutedRange (domain : Domain) (t : Transform) (row : Nat) : Except Error (Int × Int) :=
  match (List.range t.dim).find? (t.matrix.entry row · ≠ 0) with
  | none => .error (.derivation (.zeroRow row t))
  | some axis =>
    match domain.lower[axis]?, domain.upper[axis]? with
    | some l, some u =>
      let entry := t.matrix.entry row axis
      if entry = 1 then .ok (l, u - 1)
      else if entry = -1 then .ok (-(u - 1), -l)
      else .error (.derivation (.notSignedUnit entry t))
    | _, _ => .error (.fault .indexOutOfRange)

/-- The loop for one row of a signed permutation matrix. -/
def permutedLoop (domain : Domain) (t : Transform) (row : Nat) : Except Error Loop := do
  let (lower, upper) ← permutedRange domain t row
  return ⟨loopVar row, .const lower, .const upper, 1⟩

/-- The nest over the image of a domain under a signed permutation of its axes. -/
def derivePermuted (domain : Domain) (t : Transform) : Except Error Nest := do
  let loops ← (List.range t.dim).mapM (permutedLoop domain t)
  return ⟨domain, t, loops, t.inverse, none⟩

end AffineLoops.Nest
