import AffineLoops.Json.Encode
import AffineLoops.Json.Schema
/-!
# Reading stored values

The inverse of storing: a JSON value is first brought into the canonical form of its schema, which
is then read by its shape.

## Main definitions

- `ofJson?` on every type that is read back: domains, grids, bounds, expressions, loops, rules,
  observations, reports, and the parameters of catalog and sweep
-/

namespace AffineLoops

namespace Json

/-- An integer. -/
def int? : Json → Option Int
  | .int n => some n
  | _ => none

/-- A natural number. -/
def nat? (j : Json) : Option Nat := do
  let n ← j.int?
  if 0 ≤ n then some n.toNat else none

/-- A truth value. -/
def bool? : Json → Option Bool
  | .bool b => some b
  | _ => none

/-- A string. -/
def str? : Json → Option String
  | .str s => some s
  | _ => none

/-- The elements of an array. -/
def arr? : Json → Option (List Json)
  | .arr elements => some elements
  | _ => none

/-- A list whose elements are read one by one. -/
def listOf? {α : Type} (read : Json → Option α) (j : Json) : Option (List α) := do
  (← j.arr?).mapM read

/-- A point. -/
def point? : Json → Option Point :=
  listOf? int?

/-- Lists of integers. -/
def rows? : Json → Option (List (List Int)) :=
  listOf? point?

/-- The content of a cell. -/
def cell? (j : Json) : Option Cell :=
  j.int?.map Int64.ofInt

/-- A seed. -/
def seed? (j : Json) : Option UInt64 :=
  j.nat?.map UInt64.ofNat

/-- A field that is read by the given reader. -/
def get? {α : Type} (j : Json) (name : String) (read : Json → Option α) : Option α := do
  read (← j.field? name)

/-- A field that may be missing or absent. -/
def getOption? {α : Type} (j : Json) (name : String) (read : Json → Option α) :
    Option (Option α) :=
  match j.field? name with
  | none | some .null => some none
  | some value => (read value).map some

end Json

/-- A domain from its two bounds. -/
def Domain.read? (j : Json) : Option Domain := do
  return ⟨← j.get? "lower" Json.point?, ← j.get? "upper" Json.point?⟩

/-- A grid from its shape and its cells. -/
def Grid.read? (j : Json) : Option Grid := do
  return ⟨← j.get? "shape" Domain.read?, (← j.get? "data" (Json.listOf? Json.cell?)).toArray⟩

/-- A disagreement from its point and the two contents. -/
def CellDiff.read? (j : Json) : Option CellDiff := do
  return ⟨← j.get? "point" Json.point?, ← j.get? "left" Json.cell?, ← j.get? "right" Json.cell?⟩

/-- A direction from its name. -/
def Rounding.read? : Json → Option Rounding
  | .str "Floor" => some .floor
  | .str "Ceil" => some .ceil
  | _ => none

/-- An affine form from its components. -/
def AffineForm.read? (j : Json) : Option AffineForm := do
  return ⟨← j.get? "coeffs" Json.point?, ← j.get? "constant" Json.int?,
    ← j.get? "divisor" Json.int?, ← j.get? "rounding" Rounding.read?⟩

namespace Bound

mutual

/-- A bound from its canonical form. -/
def read? : Json → Option Bound
  | .obj [("Const", .int value)] => some (.const value)
  | .obj [("Affine", form)] => (AffineForm.read? form).map .affine
  | .obj [("Max", .arr operands)] => (readAll? operands).map .max
  | .obj [("Min", .arr operands)] => (readAll? operands).map .min
  | .obj [("Aligned", .obj [("base", base), ("residue", target), ("modulus", .int modulus)])] => do
    return .aligned (← read? base) (← AffineForm.read? target) modulus
  | _ => none

/-- Several bounds from their canonical forms. -/
def readAll? : List Json → Option (List Bound)
  | [] => some []
  | j :: rest => do
    let b ← read? j
    return b :: (← readAll? rest)

end

/-- A stored bound. -/
def ofJson? (j : Json) : Option Bound := do
  read? (← Schema.bound.canonical? j)

end Bound

/-- An expression from its canonical form. -/
def CellExpr.read? : Json → Option CellExpr
  | .obj [("Read", offset)] => offset.point?.map .read
  | .obj [("Aux", offset)] => offset.point?.map .aux
  | .obj [("Const", value)] => value.cell?.map .const
  | .obj [("Add", .arr [a, b])] => do return .add (← read? a) (← read? b)
  | .obj [("Sub", .arr [a, b])] => do return .sub (← read? a) (← read? b)
  | .obj [("Max", .arr [a, b])] => do return .max (← read? a) (← read? b)
  | .obj [("Min", .arr [a, b])] => do return .min (← read? a) (← read? b)
  | _ => none

/-- A stored expression. -/
def CellExpr.ofJson? (j : Json) : Option CellExpr := do
  read? (← Schema.cellExpr.canonical? j)

/-- A stored rule. -/
def UpdateRule.ofJson? (j : Json) : Option UpdateRule := do
  let c ← Schema.rule.canonical? j
  return ⟨← c.get? "name" Json.str?, ← c.get? "expr" CellExpr.read?⟩

/-- A stored loop. -/
def Loop.ofJson? (j : Json) : Option Loop := do
  let c ← Schema.loop.canonical? j
  return ⟨← c.get? "var" Json.str?, ← c.get? "lower" Bound.read?, ← c.get? "upper" Bound.read?,
    ← c.get? "step" Json.int?⟩

/-- A stored observation. -/
def Observation.ofJson? (j : Json) : Option Observation := do
  match ← Schema.observation.canonical? j with
  | .str "Array" => some .array
  | .str "VisitedSet" => some .visitedSet
  | .obj [("Cell", point)] => point.point?.map .cell
  | _ => none

/-- An observed result from its canonical form. -/
def Observed.read? : Json → Option Observed
  | .obj [("Array", grid)] => (Grid.read? grid).map .array
  | .obj [("Cell", value)] => value.cell?.map .cell
  | .obj [("Visited", points)] => points.rows?.map .visited
  | _ => none

/-- A stored observed result. -/
def Observed.ofJson? (j : Json) : Option Observed := do
  read? (← Schema.observed.canonical? j)

/-- A report from its canonical form. -/
def MismatchReport.read? (j : Json) : Option MismatchReport := do
  return ⟨← j.get? "case" Json.str?, ← j.getOption? "seed" Json.seed?,
    ← j.get? "expected" Observed.read?, ← j.get? "actual" Observed.read?,
    ← j.get? "differing_cells" (Json.listOf? CellDiff.read?)⟩

/-- A stored report of a sweep. -/
def SweepReport.ofJson? (j : Json) : Option SweepReport := do
  let c ← Schema.sweepReport.canonical? j
  return ⟨← c.get? "passed" Json.nat?, ← c.get? "failed" Json.nat?,
    ← c.get? "mismatches" (Json.listOf? MismatchReport.read?)⟩

/-- The fields of an object laid over those of another one, which keeps its order. -/
def Json.overlay (base top : Json) : Json :=
  match base with
  | .obj fields => .obj (fields.map fun (name, value) => (name, (top.field? name).getD value))
  | other => other

/-- A stored tile. -/
def Tile.read? (j : Json) : Option Tile := do
  return ⟨← j.get? "a1" Json.int?, ← j.get? "b1" Json.int?, ← j.get? "a2" Json.int?,
    ← j.get? "b2" Json.int?⟩

/-- The parameters of the catalog, where missing ones have their default values. -/
def CatalogConfig.ofJson? (j : Json) : Option CatalogConfig := do
  let c ← Schema.config.canonical? (({} : CatalogConfig).toJson.overlay j)
  return {
    size := ← c.get? "size" Json.int?
    tile := ← c.get? "tile" Tile.read?
    shearR := ← c.get? "shear_r" Json.int?
    shearT := ← c.get? "shear_t" Json.int?
    general := ← c.get? "general" Json.rows?
    lcsLeft := ← c.get? "lcs_left" Json.str?
    lcsRight := ← c.get? "lcs_right" Json.str? }

/-- The parameters of a sweep, where missing ones have their default values. -/
def ExecutionPlan.ofJson? (j : Json) : Option ExecutionPlan := do
  let c ← Schema.plan.canonical? (({} : ExecutionPlan).toJson.overlay j)
  return {
    seeds := ← c.get? "seeds" Json.nat?
    baseSeed := ← c.get? "base_seed" Json.seed?
    maximum := ← c.get? "max_value" Json.cell?
    checkEquivalence := ← c.get? "check_equivalence" Json.bool?
    verifyCoverage := ← c.get? "verify_coverage" Json.bool? }

end AffineLoops
