/-!
# Faults

A fault is a request outside the domain of an operation: a mistake of the caller, unlike the
errors, which report a property of well-formed input.

## Main definitions

- `Fault` — the kinds of fault
- `Fault.message` — their wording
-/

namespace AffineLoops

/-- A request that an operation does not admit. -/
inductive Fault where
  /-- An axis, row, column or loop that does not exist. -/
  | indexOutOfRange
  /-- A division, remainder or alignment by zero. -/
  | divisionByZero
  /-- A random value asked for from a range that holds none. -/
  | emptyRange
  /-- A loop that had not ended when its limit was reached. -/
  | unfinished
deriving DecidableEq, Inhabited

/-- The wording of a fault. -/
def Fault.message : Fault → String
  | .indexOutOfRange => "index out of range"
  | .divisionByZero => "division by zero"
  | .emptyRange => "empty range of values"
  | .unfinished => "loop not finished within its limit"

end AffineLoops
