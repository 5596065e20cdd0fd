import AffineLoops.Case.Catalog
import AffineLoops.Json.Value
import AffineLoops.Oracle.Sweep
/-!
# Storing values as JSON

How the values of this library are written as JSON: a structure becomes an object with a field per
component, an alternative an object whose only field is its name, or the bare name if it holds
nothing.

## Main definitions

- `toJson` on every type that is stored: matrices, domains, grids, bounds, expressions, nests,
  observations, reports, and the parameters of catalog and sweep
-/

namespace AffineLoops

/-- An alternative that holds a value. -/
def Json.tagged (name : String) (value : Json) : Json :=
  .obj [(name, value)]

/-- The rows and the two sizes. -/
def IntMatrix.toJson (m : IntMatrix) : Json :=
  .obj [("data", .ofRows m.toRows), ("rows", .ofNat m.rows), ("cols", .ofNat m.cols)]

/-- The two bounds. -/
def Domain.toJson (d : Domain) : Json :=
  .obj [("lower", .ofInts d.lower), ("upper", .ofInts d.upper)]

/-- A cell as an integer. -/
def Json.ofCell (c : Cell) : Json :=
  .int c.toInt

/-- The cells in row-major order. -/
def Grid.cellsToJson (g : Grid) : Json :=
  .arr (g.cells.toList.map .ofCell)

/-- The shape and the cells. -/
def Grid.toJson (g : Grid) : Json :=
  .obj [("shape", g.shape.toJson), ("data", g.cellsToJson)]

/-- The point and the two contents. -/
def CellDiff.toJson (d : CellDiff) : Json :=
  .obj [("point", .ofInts d.point), ("left", .ofCell d.left), ("right", .ofCell d.right)]

/-- The name of a direction. -/
def Rounding.toJson : Rounding → Json
  | .floor => .str "Floor"
  | .ceil => .str "Ceil"

/-- The components of an affine form. -/
def AffineForm.toJson (a : AffineForm) : Json :=
  .obj [("coeffs", .ofInts a.coeffs), ("constant", .int a.constant), ("divisor", .int a.divisor),
    ("rounding", a.rounding.toJson)]

namespace Bound

mutual

/-- A bound, by its kind. -/
def toJson : Bound → Json
  | .const value => .tagged "Const" (.int value)
  | .affine form => .tagged "Affine" form.toJson
  | .max operands => .tagged "Max" (.arr (allToJson operands))
  | .min operands => .tagged "Min" (.arr (allToJson operands))
  | .aligned base target modulus =>
    .tagged "Aligned"
      (.obj [("base", toJson base), ("residue", target.toJson), ("modulus", .int modulus)])

/-- Several bounds. -/
def allToJson : List Bound → List Json
  | [] => []
  | b :: bs => toJson b :: allToJson bs

end

end Bound

/-- An expression, by its kind. -/
def CellExpr.toJson : CellExpr → Json
  | .read offset => .tagged "Read" (.ofInts offset)
  | .aux offset => .tagged "Aux" (.ofInts offset)
  | .const value => .tagged "Const" (.ofCell value)
  | .add a b => .tagged "Add" (.arr [toJson a, toJson b])
  | .sub a b => .tagged "Sub" (.arr [toJson a, toJson b])
  | .max a b => .tagged "Max" (.arr [toJson a, toJson b])
  | .min a b => .tagged "Min" (.arr [toJson a, toJson b])

/-- The name and the right-hand side. -/
def UpdateRule.toJson (r : UpdateRule) : Json :=
  .obj [("name", .str r.name), ("expr", r.expr.toJson)]

/-- The variable, the bounds and the stride. -/
def Loop.toJson (l : Loop) : Json :=
  .obj [("var", .str l.var), ("lower", l.lower.toJson), ("upper", l.upper.toJson),
    ("step", .int l.step)]

/-- The matrix and the determinant. -/
def Transform.toJson (t : Transform) : Json :=
  .obj [("matrix", IntMatrix.toJson t.matrix), ("det", .int t.determinant)]

/-- The adjugate and the divisor. -/
def InverseMap.toJson (f : InverseMap) : Json :=
  .obj [("adjugate", IntMatrix.toJson f.adjugate), ("det", .int f.divisor)]

/-- The parts of a nest. -/
def Nest.toJson (nest : Nest) : Json :=
  .obj [("domain", nest.domain.toJson), ("transform", nest.transform.toJson),
    ("loops", .arr (nest.loops.map Loop.toJson)), ("inverse", nest.inverse.toJson),
    ("body", .ofOption UpdateRule.toJson nest.body)]

/-- An observation, by its kind. -/
def Observation.toJson : Observation → Json
  | .array => .str "Array"
  | .cell point => .tagged "Cell" (.ofInts point)
  | .visitedSet => .str "VisitedSet"

/-- An observed result, by its kind. -/
def Observed.toJson : Observed → Json
  | .array grid => .tagged "Array" grid.toJson
  | .cell value => .tagged "Cell" (.ofCell value)
  | .visited points => .tagged "Visited" (.ofRows points)

/-- A seed as an integer. -/
def Json.ofSeed (seed : UInt64) : Json :=
  .ofNat seed.toNat

/-- The parts of a report. -/
def MismatchReport.toJson (r : MismatchReport) : Json :=
  .obj [("case", .str r.name), ("seed", .ofOption .ofSeed r.seed),
    ("expected", r.expected.toJson), ("actual", r.actual.toJson),
    ("differing_cells", .arr (r.differingCells.map CellDiff.toJson))]

/-- The counts and the reports. -/
def SweepReport.toJson (r : SweepReport) : Json :=
  .obj [("passed", .ofNat r.passed), ("failed", .ofNat r.failed),
    ("mismatches", .arr (r.mismatches.map MismatchReport.toJson))]

/-- The parameters of a sweep. -/
def ExecutionPlan.toJson (p : ExecutionPlan) : Json :=
  .obj [("seeds", .ofNat p.seeds), ("base_seed", .ofSeed p.baseSeed),
    ("max_value", .ofCell p.maximum), ("check_equivalence", .bool p.checkEquivalence),
    ("verify_coverage", .bool p.verifyCoverage)]

/-- The four ends of a tile. -/
def Tile.toJson (t : Tile) : Json :=
  .obj [("a1", .int t.a₁), ("b1", .int t.b₁), ("a2", .int t.a₂), ("b2", .int t.b₂)]

/-- The parameters of the catalog. -/
def CatalogConfig.toJson (c : CatalogConfig) : Json :=
  .obj [("size", .int c.size), ("tile", c.tile.toJson), ("shear_r", .int c.shearR),
    ("shear_t", .int c.shearT), ("general", .ofRows c.general), ("lcs_left", .str c.lcsLeft),
    ("lcs_right", .str c.lcsRight)]

end AffineLoops
