import AffineLoops.Nest.Walk
/-!
# Observations

Two nests are compared by what a run leaves behind: the whole array, one designated cell, or the
set of visited iterations.

## Main definitions

- `Observation`, `Observed` — what is looked at, and what is seen
- `Observation.observe` — one run of a rule over a nest, seen through an observation
-/

namespace AffineLoops

/-- What part of a run is compared. -/
inductive Observation where
  | array
  /-- One designated cell. -/
  | cell (point : Point)
  /-- The visited iterations, in any order. -/
  | visitedSet
deriving DecidableEq, Inhabited

/-- The observed part of a run. -/
inductive Observed where
  | array (grid : Grid)
  /-- The final content of the designated cell. -/
  | cell (value : Cell)
  /-- The visited iterations, sorted. -/
  | visited (points : List Point)
deriving DecidableEq

namespace Observation

/-- The grid after a run of the rule over the nest, if no visit fails. -/
def finalGrid (rule : UpdateRule) (aux : Option Grid) (nest : Nest) (input : Grid) :
    Except Error Grid :=
  match (nest.visit (rule.apply aux)).run.run input with
  | (.ok (), grid) => .ok grid
  | (.error e, _) => .error e

/-- Runs the rule over the nest, on a copy of the input, and looks at the result. The set of visited
iterations needs no run. -/
def observe (observation : Observation) (rule : UpdateRule) (aux : Option Grid) (nest : Nest)
    (input : Grid) : Except Error Observed := do
  match observation with
  | .visitedSet => return .visited ((← nest.iterationPoints).mergeSort Point.lexLe)
  | .array => return .array (← finalGrid rule aux nest input)
  | .cell point => return .cell (← (← finalGrid rule aux nest input).get point)

end Observation

end AffineLoops
