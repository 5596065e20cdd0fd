import AffineLoops.Nest.Basic
/-!
# Walking a nest

A walk visits the points of a nest in loop order. Bounds are evaluated when a loop is entered, for
the values that the loops around it have then. What is done at a point can fail, which ends the
walk and keeps the effects of the visits before.

## Main definitions

- `Nest.walk` — visits every tuple of loop values
- `Nest.visit` — visits the iterations that they stand for
- `Nest.transformedPoints`, `Nest.iterationPoints` — what is visited, as lists
- `Nest.run` — executes the statement at every iteration

## Design notes

A loop whose stride is not positive never ends by itself once it is entered, but a visit inside it
may fail. Such a loop is given a fixed number of turns, after which the walk stops as unfinished.
-/

namespace AffineLoops

namespace Loop

/-- The turns given to a loop that does not end by itself. -/
def patience : Nat := 1 <<< 20

/-- Number of turns of a loop from `lo` to `hi`, included. -/
def turns (lo hi step : Int) : Nat :=
  if hi < lo then 0
  else if 0 < step then ((hi - lo) / step).toNat + 1
  else patience

/-- Does something for so many values, one stride apart. -/
def forValues {σ : Type} (step : Int) (body : Int → Stateful σ Unit) : Nat → Int → Stateful σ Unit
  | 0, _ => pure ()
  | n + 1, v => do
    body v
    forValues step body n (v + step)

/-- Does something for every value of the loop variable, given the values of the loops around. -/
def forEach {σ : Type} (l : Loop) (outer : Point) (body : Int → Stateful σ Unit) :
    Stateful σ Unit := do
  unless l.upper.isDefined && l.lower.isDefined do throw (.fault .divisionByZero)
  let hi := l.upper.eval outer
  let lo := l.lower.eval outer
  forValues l.step body (turns lo hi l.step) lo
  if l.step ≤ 0 ∧ lo ≤ hi then throw (.fault .unfinished)

end Loop

namespace Nest

variable {σ : Type}

/-- Visits every tuple of values of the given loops, inside loops that have the values `outer`. -/
def walkFrom (f : Point → Stateful σ Unit) : List Loop → Point → Stateful σ Unit
  | [], outer => f outer
  | l :: loops, outer => l.forEach outer fun v => walkFrom f loops (outer ++ [v])

/-- Visits every tuple of loop values in loop order. -/
def walk (nest : Nest) (f : Point → Stateful σ Unit) : Stateful σ Unit :=
  walkFrom f nest.loops []

/-- Visits every iteration in loop order. -/
def visit (nest : Nest) (f : Point → Stateful σ Unit) : Stateful σ Unit :=
  nest.walk fun q => do
    match nest.inverse.apply q with
    | .ok p => f p
    | .error e => throw e

/-- The points that a walk visits, in order. -/
def trace (traversal : (Point → Stateful (Array Point) Unit) → Stateful (Array Point) Unit) :
    Except Error (List Point) :=
  match (traversal fun p => modify (·.push p)).run.run #[] with
  | (.ok (), points) => .ok points.toList
  | (.error e, _) => .error e

/-- The tuples of loop values, in loop order. -/
def transformedPoints (nest : Nest) : Except Error (List Point) :=
  trace nest.walk

/-- The iterations, in loop order. -/
def iterationPoints (nest : Nest) : Except Error (List Point) :=
  trace nest.visit

/-- Executes the statement at every iteration; a nest without one only visits them. -/
def run (nest : Nest) (aux : Option Grid) : Stateful Grid Unit :=
  match nest.body with
  | some rule => nest.visit (rule.apply aux)
  | none => nest.visit fun _ => pure ()

end Nest

end AffineLoops
