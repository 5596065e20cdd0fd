import AffineLoops.Derivation.General
import AffineLoops.Grid.Random
import AffineLoops.Nest.Coverage
import AffineLoops.Oracle.Check
/-!
# Cases

A case pairs the reference nest of a domain with the nest that is derived for a transform of it,
together with the rule they execute, the array they update and what is observed.

## Main definitions

- `CaseSpec` — what a case is made of
- `Case`, `Case.build` — the two nests, and the checks made before they are derived
- `Case.execute`, `Case.verify`, `Case.oracle`, `Case.inputGrid` — what can be done with a case
-/

namespace AffineLoops

/-- How the input array of a case is filled. -/
inductive InputKind where
  | random
  | zeros
deriving DecidableEq, Inhabited

/-- What a case is made of. -/
structure CaseSpec where
  name : String
  domain : Domain
  /-- The index set of the updated array. -/
  arrayShape : Domain
  transform : Transform
  /-- The declared dependences. -/
  dependences : DependencePattern
  rule : UpdateRule
  /-- What is compared. -/
  observation : Observation := .array
  input : InputKind := .random
  /-- A read-only array for the rule. -/
  aux : Option Grid := none

/-- A reference nest and a derived one, with what they work on. -/
structure Case where
  name : String
  /-- The nest in lexicographic order. -/
  reference : Nest
  /-- The derived nest. -/
  transformed : Nest
  /-- The declared dependences. -/
  dependences : DependencePattern
  rule : UpdateRule
  /-- What is compared. -/
  observation : Observation
  /-- The index set of the updated array. -/
  arrayShape : Domain
  input : InputKind
  /-- A read-only array for the rule. -/
  aux : Option Grid

namespace CaseSpec

/-- Checks that the cells read at an offset lie in the array for all iterations. The corners of the
domain decide it. -/
def checkRead (spec : CaseSpec) (offset : Point) : Except Error Unit := do
  let touched ← spec.domain.translate offset
  match touched.corners.find? (fun c => !spec.arrayShape.contains c) with
  | some corner => throw (.domain (.outOfBounds corner (.box spec.arrayShape)))
  | none => return ()

/-- Checks that a designated cell lies in the array. -/
def checkObservation (spec : CaseSpec) : Except Error Unit :=
  match spec.observation with
  | .cell point =>
    if spec.arrayShape.contains point then .ok ()
    else .error (.domain (.outOfBounds point (.box spec.arrayShape)))
  | _ => .ok ()

end CaseSpec

namespace Case

/-- Builds both nests of a case whose reads and whose designated cell stay in the array. Whether
the transform respects the dependences is left to `verify`. -/
def build (spec : CaseSpec) : Except Error Case := do
  spec.rule.reads.forM spec.checkRead
  spec.checkObservation
  let _ ← spec.rule.dependencePattern spec.domain.dim
  let transformed ← Nest.derive spec.domain spec.transform
  return {
    name := spec.name
    reference := (Nest.reference spec.domain).withBody spec.rule
    transformed := transformed.withBody spec.rule
    dependences := spec.dependences
    rule := spec.rule
    observation := spec.observation
    arrayShape := spec.arrayShape
    input := spec.input
    aux := spec.aux }

/-- The oracle over the two nests. -/
def oracle (c : Case) : Oracle :=
  ⟨c.name, c.reference, c.transformed, c.rule, c.observation⟩

/-- Runs the oracle on an input, which may have a seed. -/
def check (c : Case) (input : Grid) (seed : Option UInt64) : Except Error Verdict :=
  c.oracle.check input c.aux seed

/-- The grid after a run of one of the nests on a copy of the input. -/
def execute (c : Case) (nest : Nest) (input : Grid) : Except Error Grid :=
  match (nest.run c.aux).run.run input with
  | (.ok (), grid) => .ok grid
  | (.error e, _) => .error e

/-- The input array for a seed. -/
def inputGrid (c : Case) (seed : UInt64) (maximum : Cell) : Except Fault Grid :=
  match c.input with
  | .random => Grid.random c.arrayShape seed maximum
  | .zeros => .ok (Grid.zeros c.arrayShape)

/-- Checks that the derived nest covers the domain and keeps the declared dependences. -/
def verify (c : Case) : Except Error Unit :=
  c.transformed.verifyOrder c.dependences

end Case

end AffineLoops
