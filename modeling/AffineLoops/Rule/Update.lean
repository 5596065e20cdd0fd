import AffineLoops.Rule.Expr
import AffineLoops.Dependence.Pattern
/-!
# Update rules

A rule is the statement of a loop nest: at every iteration `p` the cell `p` takes the value of an
expression in the cells around it.

## Main definitions

- `UpdateRule` — a named expression
- `UpdateRule.stencil`, `UpdateRule.lcs` — sums of neighbours, and the recurrence of the longest
  common subsequence
- `UpdateRule.dependencePattern` — the dependences that the rule carries
- `Stateful`, `UpdateRule.apply` — the effect of one iteration on a grid
-/

namespace AffineLoops

/-- The assignment of an expression to the cell of the iteration. -/
structure UpdateRule where
  /-- The name used in reports and in written nests. -/
  name : String
  /-- The right-hand side. -/
  expr : CellExpr
deriving DecidableEq, Inhabited

/-- A computation that changes a state until it ends or fails, and keeps the state in both
cases. -/
abbrev Stateful (σ : Type) := ExceptT Error (StateM σ)

namespace UpdateRule

/-- The sum of the cells at the given offsets, from left to right; zero if there are none. -/
def stencil (name : String) (offsets : List Point) : UpdateRule :=
  match offsets.map CellExpr.read with
  | [] => ⟨name, .const 0⟩
  | first :: rest => ⟨name, rest.foldl .add first⟩

/-- The recurrence of the longest common subsequence over a table of matches:
`a[i][j] = max(a[i-1][j], a[i][j-1], a[i-1][j-1] + aux[i][j])`. -/
def lcs : UpdateRule :=
  ⟨"lcs", .max (.max (.read [-1, 0]) (.read [0, -1])) (.add (.read [-1, -1]) (.aux [0, 0]))⟩

/-- The offsets read from the main grid, from left to right. -/
def reads (r : UpdateRule) : List Point :=
  r.expr.reads

/-- The dependences that the rule carries on a nest with so many axes. Reads and write multiply the
iteration with the identity, whose rows and columns settle in one round. -/
def dependencePattern (r : UpdateRule) (dim : Nat) : Except Error DependencePattern :=
  DependencePattern.ofAccesses 1 (.uniform (List.replicate dim 0)) (r.reads.map .uniform)

/-- The value that the rule assigns at an iteration. -/
def value (r : UpdateRule) (grid : Grid) (aux : Option Grid) (p : Point) : Except Error Cell :=
  r.expr.eval grid aux p

/-- The grid after the rule was executed at one iteration, with the error if it failed; a failing
rule changes nothing. -/
def applyTo (r : UpdateRule) (aux : Option Grid) (p : Point) (grid : Grid) :
    Except Error Unit × Grid :=
  match r.value grid aux p with
  | .error e => (.error e, grid)
  | .ok v =>
    match grid.shape.linearIndex? p with
    | none => (.error (.domain (grid.outside p)), grid)
    | some k => (.ok (), grid.setIndex k v)

/-- Executes the rule at one iteration. -/
def apply (r : UpdateRule) (aux : Option Grid) (p : Point) : Stateful Grid Unit :=
  r.applyTo aux p

/-- The rule as an assignment, over the default names. -/
def render (r : UpdateRule) : String :=
  r.name ++ ": a[i][j] = " ++ r.expr.render {}

end UpdateRule

end AffineLoops
