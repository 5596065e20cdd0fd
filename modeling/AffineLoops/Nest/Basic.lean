import AffineLoops.Nest.Bound
import AffineLoops.Rule.Update
import AffineLoops.Text.Indented
import AffineLoops.Transform.Inverse
/-!
# Loop nests

A nest is a list of loops, outermost first, whose bounds depend on the variables of the loops
around them, together with the map from the loop values back to the iteration they stand for.

## Main definitions

- `Loop` — a variable, two bounds and a stride
- `Nest` — loops over the image of a domain under a transform
- `Nest.reference` — the nest that visits a domain in lexicographic order
- `Nest.render` — the written form
-/

namespace AffineLoops

/-- One loop of a nest: the variable runs from `lower` to `upper`, included, by `step`. -/
structure Loop where
  var : String
  lower : Bound
  /-- No value is greater than this. -/
  upper : Bound
  step : Int
deriving Inhabited

/-- The name of the loop variable of an axis. -/
def loopVar (axis : Nat) : String :=
  "c" ++ toString axis

/-- A loop nest over the image of a domain. -/
structure Nest where
  domain : Domain
  /-- The transform whose image the loops enumerate. -/
  transform : Transform
  /-- The loops, outermost first. -/
  loops : List Loop
  inverse : InverseMap
  /-- What is executed at every iteration. -/
  body : Option UpdateRule

namespace Nest

/-- The loop over the range of one axis of a domain. -/
def referenceLoop (axis : Nat) (lower upper : Int) : Loop :=
  ⟨loopVar axis, .const lower, .const (upper - 1), 1⟩

/-- The nest that visits a domain in lexicographic order. -/
def reference (domain : Domain) : Nest where
  domain := domain
  transform := .identity domain.dim
  loops := (domain.lower.zip domain.upper).zipIdx.map fun ((l, u), axis) => referenceLoop axis l u
  inverse := .identity domain.dim
  body := none

/-- The nest with a statement attached. -/
def withBody (nest : Nest) (rule : UpdateRule) : Nest :=
  { nest with body := some rule }

/-- Number of loops. -/
def depth (nest : Nest) : Nat :=
  nest.loops.length

/-- The loop variables, outermost first. -/
def varNames (nest : Nest) : List String :=
  nest.loops.map Loop.var

/-- The nest with one of its loops replaced. -/
def replaceLoop (nest : Nest) (k : Nat) (l : Loop) : Except Fault Nest :=
  if k < nest.depth then .ok { nest with loops := nest.loops.set k l } else .error .indexOutOfRange

/-- The coordinates of the iteration, as expressions in the loop variables. -/
def indexFormulas (nest : Nest) : List String :=
  nest.inverse.formulas nest.varNames

/-- The header of a loop, over the names of the loops around it. A stride of one does not show. -/
def renderLoop (enclosing : List String) (l : Loop) : String :=
  "for " ++ l.var ++ " = " ++ l.lower.render enclosing ++ " to " ++ l.upper.render enclosing ++
    (if l.step = 1 then "" else " step " ++ toString l.step)

/-- The call of the statement at the iteration. -/
def renderStatement (nest : Nest) : String :=
  (nest.body.map UpdateRule.name).getD "S" ++ "(" ++ ", ".intercalate nest.indexFormulas ++ ")"

/-- The loops, one per line, and the statement, each indented once more than the one before. -/
def render (nest : Nest) : String :=
  let header (text : Indented) (entry : Loop × Nat) :=
    (text.line (renderLoop (nest.varNames.take entry.2) entry.1)).indent
  ((nest.loops.zipIdx.foldl header {}).line nest.renderStatement).text

end Nest

end AffineLoops
