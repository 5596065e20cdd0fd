import AffineLoops.Json.Value
/-!
# Schemas of stored values

A schema says which JSON values stand for a stored value, and what the canonical one among them is:
all fields of a record are present and in order, fields that are not its own are dropped, and the
name of an alternative without content stands alone.

## Main definitions

- `Schema`, `Schema.Content` — the forms of stored values
- `Schema.canonical?` — the canonical form of a value, if the schema admits it
- `Schema.ofName?` — the schemas of recursive values, by name

## Design notes

Bounds and cell expressions contain values of their own kind, which a schema refers to by name.
Reading a value passes through at most four schemas per level of the value, so the number of steps
is bounded by its depth.
-/

namespace AffineLoops

mutual

/-- The form of a stored value. -/
inductive Schema where
  /-- A signed 64-bit integer. -/
  | signed
  /-- An unsigned 64-bit integer. -/
  | unsigned
  | bool
  | str
  | list (element : Schema)
  /-- A value that may be absent. -/
  | optional (value : Schema)
  /-- Named fields in order. -/
  | record (fields : List (String × Schema))
  /-- One of several named alternatives. -/
  | choice (alternatives : List (String × Schema.Content))
  /-- A schema that is referred to by its name. -/
  | named (name : String)

/-- What an alternative holds. -/
inductive Schema.Content where
  | nothing
  | single (value : Schema)
  /-- A fixed number of values. -/
  | tuple (values : List Schema)
  | fields (fields : List (String × Schema))

end

namespace Json

mutual

/-- How deep lists and objects are nested in a value. -/
def depth : Json → Nat
  | .arr elements => depthAll elements + 1
  | .obj fields => depthFields fields + 1
  | _ => 0

/-- The greatest depth among several values. -/
def depthAll : List Json → Nat
  | [] => 0
  | j :: rest => max (depth j) (depthAll rest)

/-- The greatest depth among several fields. -/
def depthFields : List (String × Json) → Nat
  | [] => 0
  | (_, j) :: rest => max (depth j) (depthFields rest)

end

end Json

namespace Schema

/-- A list of integers. -/
def point : Schema := .list .signed

/-- The sizes of a matrix are stored beside its rows. -/
def matrix : Schema :=
  .record [("data", .list point), ("rows", .unsigned), ("cols", .unsigned)]

/-- The bounds of a domain. -/
def domain : Schema :=
  .record [("lower", point), ("upper", point)]

/-- The shape and the cells of a grid. -/
def grid : Schema :=
  .record [("shape", domain), ("data", point)]

/-- A cell at which two grids disagree. -/
def cellDiff : Schema :=
  .record [("point", point), ("left", .signed), ("right", .signed)]

/-- An affine form. -/
def affine : Schema :=
  .record [("coeffs", point), ("constant", .signed), ("divisor", .signed),
    ("rounding", .choice [("Floor", .nothing), ("Ceil", .nothing)])]

/-- A loop bound. -/
def bound : Schema :=
  .choice [("Const", .single .signed), ("Affine", .single affine),
    ("Max", .single (.list (.named "bound"))), ("Min", .single (.list (.named "bound"))),
    ("Aligned", .fields [("base", .named "bound"), ("residue", affine), ("modulus", .signed)])]

/-- A cell expression. -/
def cellExpr : Schema :=
  let operands : Content := .tuple [.named "expression", .named "expression"]
  .choice [("Read", .single point), ("Aux", .single point), ("Const", .single .signed),
    ("Add", operands), ("Sub", operands), ("Max", operands), ("Min", operands)]

/-- An update rule. -/
def rule : Schema :=
  .record [("name", .str), ("expr", .named "expression")]

/-- A loop. -/
def loop : Schema :=
  .record [("var", .str), ("lower", .named "bound"), ("upper", .named "bound"), ("step", .signed)]

/-- A transform. -/
def transform : Schema :=
  .record [("matrix", matrix), ("det", .signed)]

/-- An inverse map. -/
def inverse : Schema :=
  .record [("adjugate", matrix), ("det", .signed)]

/-- A loop nest. -/
def nest : Schema :=
  .record [("domain", domain), ("transform", transform), ("loops", .list loop),
    ("inverse", inverse), ("body", .optional rule)]

/-- An observation. -/
def observation : Schema :=
  .choice [("Array", .nothing), ("Cell", .single point), ("VisitedSet", .nothing)]

/-- The observed part of a run. -/
def observed : Schema :=
  .choice [("Array", .single grid), ("Cell", .single .signed), ("Visited", .single (.list point))]

/-- The report of a failed comparison. -/
def mismatch : Schema :=
  .record [("case", .str), ("seed", .optional .unsigned), ("expected", observed),
    ("actual", observed), ("differing_cells", .list cellDiff)]

/-- The report of a sweep. -/
def sweepReport : Schema :=
  .record [("passed", .unsigned), ("failed", .unsigned), ("mismatches", .list mismatch)]

/-- A plan of a sweep. -/
def plan : Schema :=
  .record [("seeds", .unsigned), ("base_seed", .unsigned), ("max_value", .signed),
    ("check_equivalence", .bool), ("verify_coverage", .bool)]

/-- A tile. -/
def tile : Schema :=
  .record [("a1", .signed), ("b1", .signed), ("a2", .signed), ("b2", .signed)]

/-- The parameters of the catalog. -/
def config : Schema :=
  .record [("size", .signed), ("tile", tile), ("shear_r", .signed), ("shear_t", .signed),
    ("general", .list point), ("lcs_left", .str), ("lcs_right", .str)]

/-- The schemas that are referred to by name: those of values that contain values of their kind. -/
def table : List (String × Schema) :=
  [("bound", bound), ("expression", cellExpr)]

/-- The schema with a name. -/
def ofName? (name : String) : Option Schema :=
  table.lookup name

/-- An integer within the given range, both ends included. -/
def inRange (lo hi : Int) : Json → Option Json
  | .int n => if lo ≤ n ∧ n ≤ hi then some (.int n) else none
  | _ => none

/-- Whether a missing field may be read as the absent value. -/
def mayBeAbsent : Schema → Bool
  | .optional _ => true
  | _ => false

/-- Reads a sequence of values, one by each of the readers; there must be as many of both. -/
def zipRead (readers : List (Json → Option Json)) (values : List Json) : Option (List Json) :=
  if readers.length = values.length then
    (readers.zip values).mapM fun (reader, value) => reader value
  else none

/-- Reads the fields of a record from an object. -/
def readFields (read : Schema → Json → Option Json) (fields : List (String × Schema)) (j : Json) :
    Option Json :=
  match j with
  | .obj _ => do
    let values ← fields.mapM fun (name, schema) =>
      match j.field? name with
      | some value => (read schema value).map fun v => (name, v)
      | none => if schema.mayBeAbsent then some (name, .null) else none
    return .obj values
  | _ => none

/-- Reads a record from an object, or from the array of all its values in order. -/
def readRecord (read : Schema → Json → Option Json) (fields : List (String × Schema)) (j : Json) :
    Option Json :=
  match j with
  | .arr values => do
    let values ← zipRead (fields.map fun field => read field.2) values
    return .obj ((fields.map Prod.fst).zip values)
  | _ => readFields read fields j

/-- Reads what an alternative holds; `none` stands for the bare name of the alternative. -/
def readContent (read : Schema → Json → Option Json) (name : String) (content : Content)
    (value : Option Json) : Option Json :=
  match content, value with
  | .nothing, none => some (.str name)
  | .nothing, some .null => some (.str name)
  | .single schema, some value => (read schema value).map fun v => .obj [(name, v)]
  | .tuple schemas, some (.arr values) =>
    (zipRead (schemas.map read) values).map fun vs => .obj [(name, .arr vs)]
  | .fields fields, some value => (readRecord read fields value).map fun v => .obj [(name, v)]
  | _, _ => none

/-- Reads one of several alternatives: an object with the name as its only field, or the name
alone. -/
def readChoice (read : Schema → Json → Option Json) (alternatives : List (String × Content))
    (j : Json) : Option Json :=
  match j with
  | .str name => do readContent read name (← alternatives.lookup name) none
  | .obj [(name, value)] => do readContent read name (← alternatives.lookup name) (some value)
  | _ => none

/-- Reads a value in at most so many nested steps. -/
def readWithin : Nat → Schema → Json → Option Json
  | 0, _, _ => none
  | steps + 1, schema, j =>
    match schema with
    | .signed => inRange Int64.minValue.toInt Int64.maxValue.toInt j
    | .unsigned => inRange 0 (UInt64.size - 1) j
    | .bool =>
      match j with
      | .bool b => some (.bool b)
      | _ => none
    | .str =>
      match j with
      | .str s => some (.str s)
      | _ => none
    | .list element =>
      match j with
      | .arr elements => (elements.mapM (readWithin steps element)).map .arr
      | _ => none
    | .optional value =>
      match j with
      | .null => some .null
      | _ => readWithin steps value j
    | .record fields => readRecord (readWithin steps) fields j
    | .choice alternatives => readChoice (readWithin steps) alternatives j
    | .named name => do readWithin steps (← ofName? name) j

/-- The canonical form of a stored value, if the schema admits it. -/
def canonical? (schema : Schema) (j : Json) : Option Json :=
  readWithin (4 * (j.depth + 1)) schema j

end Schema

end AffineLoops
