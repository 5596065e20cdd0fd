import AffineLoops.Fault
/-!
# Rounded quotients

Loop bounds divide with an explicit direction of rounding, and an aligned bound looks for the
next value in a residue class. Both are stated on all integers; the checked forms refuse a
divisor of zero.

## Main definitions

- `Rounding` — the direction of a rounded quotient
- `Rounding.quotient` — the quotient rounded that way, for divisors of either sign
- `residue` — the least non-negative residue
-/

namespace AffineLoops

/-- The direction in which a quotient is rounded. -/
inductive Rounding where
  /-- Toward negative infinity. -/
  | floor
  /-- Toward positive infinity. -/
  | ceil
deriving DecidableEq, Inhabited

namespace Rounding

/-- The quotient `a / b` rounded in the given direction. -/
def quotient : Rounding → Int → Int → Int
  | floor, a, b => a.fdiv b
  | ceil, a, b => -((-a).fdiv b)

/-- The rounded quotient, where a divisor of zero is a fault. -/
def quotient? (r : Rounding) (a b : Int) : Except Fault Int :=
  if b = 0 then .error .divisionByZero else .ok (r.quotient a b)

/-- What a quotient rounded down leaves over is smaller than the divisor. -/
theorem natAbs_sub_floor_mul_lt (a : Int) {b : Int} (hb : b ≠ 0) :
    (a - floor.quotient a b * b).natAbs < b.natAbs := by
  have hrem : a - floor.quotient a b * b = a.fmod b := by
    rw [quotient, Int.fmod_def, Int.mul_comm]
  rw [hrem, Int.fmod_eq_emod]
  have hnonneg := Int.emod_nonneg a hb
  have hlt := Int.emod_lt a hb
  split
  · omega
  · next h =>
    have hne : a % b ≠ 0 := fun h0 => h (Or.inr (Int.dvd_of_emod_eq_zero h0))
    omega

end Rounding

/-- The least non-negative integer congruent to `a` modulo `m`; the sign of `m` is immaterial. -/
def residue (a m : Int) : Int :=
  a % m

/-- The least non-negative residue, where a modulus of zero is a fault. -/
def residue? (a m : Int) : Except Fault Int :=
  if m = 0 then .error .divisionByZero else .ok (residue a m)

end AffineLoops
