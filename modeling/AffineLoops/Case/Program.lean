import AffineLoops.Case.Basic
/-!
# C programs for cases

Every case can be written as a standalone C program: both nests as functions over one array type,
and a driver that runs them on copies of one input and compares what is observed. Cells are
unsigned 64-bit integers, so that sums wrap; loop variables are signed.

## Main definitions

- `CProgram` — the seed and the greatest random value of a program
- `CProgram.helpers` — the rounding functions that bounds and rules call
- `CProgram.render` — the text of the program for a case

## Design notes

A brace of the C text is written `\x7b` or `\x7d`.
-/

namespace AffineLoops

/-- The parameters of a written program. -/
structure CProgram where
  seed : UInt64 := 0
  /-- Random cells are drawn from zero up to this value. -/
  maximum : Int := 10

namespace CProgram

/-- The functions that written bounds and rules call, one per line. -/
def helpers : List String := [
  "static inline long long floord(long long n, long long d) \x7b return n >= 0 ? n / d : -((-n + d - 1) / d); \x7d",
  "static inline long long ceild(long long n, long long d) \x7b return -floord(-n, d); \x7d",
  "static inline long long pmod(long long a, long long m) \x7b long long r = a % m; return r < 0 ? r + m : r; \x7d",
  "static inline long long max(long long a, long long b) \x7b return a > b ? a : b; \x7d",
  "static inline long long min(long long a, long long b) \x7b return a < b ? a : b; \x7d",
  "static inline cell cmax(cell a, cell b) \x7b return (long long)a > (long long)b ? a : b; \x7d",
  "static inline cell cmin(cell a, cell b) \x7b return (long long)a < (long long)b ? a : b; \x7d"]

/-- The name of one coordinate of the iteration. -/
def indexName (axis : Nat) : String :=
  match axis with
  | 0 => "i"
  | 1 => "j"
  | k => "i" ++ toString k

/-- Some text between square brackets. -/
def bracket (s : String) : String :=
  "[" ++ s ++ "]"

/-- The name of the constant for the extent of the array on one axis. -/
def extentName (axis : Nat) : String :=
  "N" ++ toString axis

/-- A row of a table with its braces and the comma after it. -/
def renderRow (row : List Cell) : String :=
  "\x7b" ++ ", ".intercalate (row.map fun v => toString v.toInt) ++ "\x7d,"

/-- A list cut into pieces of the given width, the last one as long as what is left. -/
def chunks (width : Nat) (cells : List Cell) : List (List Cell) :=
  let count := (cells.length + (width - 1)) / width
  (List.range count).map fun k => (cells.drop (k * width)).take width

/-- How many cells are printed on a row of a table: the extent of the last axis, or all of them when
there is no other axis. -/
def tableWidth (g : Grid) : Nat :=
  if 1 < g.shape.dim then (g.shape.extents.getLastD 0).toNat else g.cells.size

/-- The declarator of a table: its name and the extents. -/
def tableDeclarator (g : Grid) : String :=
  "aux" ++ String.join (g.shape.extents.map fun e => bracket (toString e))

/-- The definition of the auxiliary table. -/
def table (text : Indented) (g : Grid) : Indented :=
  let opened := text.line ("static const cell " ++ tableDeclarator g ++ " = \x7b")
  let rows := (chunks (max (tableWidth g) 1) g.cells.toList).map renderRow
  (opened.indent.lines rows).dedent.line "\x7d;"

/-- The type of the array as a parameter. -/
def arrayParameter (shape : Domain) : String :=
  "cell (*a)" ++
    String.join ((List.range (shape.dim - 1)).map fun k => bracket (extentName (k + 1)))

/-- The declarator of an array. -/
def arrayDeclarator (name : String) (shape : Domain) : String :=
  name ++ String.join ((List.range shape.dim).map fun k => bracket (extentName k))

/-- The header of a loop, over the names of the loops around it. -/
def loopHeader (enclosing : List String) (l : Loop) : String :=
  "for (long long " ++ l.var ++ " = " ++ l.lower.render enclosing ++ "; " ++
    l.var ++ " <= " ++ l.upper.render enclosing ++ "; " ++
    l.var ++ " += " ++ toString l.step ++ ") \x7b"

/-- The assignment of the rule, over the given coordinates of the iteration. -/
def assignment (rule : UpdateRule) (indices : List String) : String :=
  let names : CellNames := { indices := indices, maximum := "cmax", minimum := "cmin" }
  "a" ++ String.join (indices.map bracket) ++ " = " ++ rule.expr.render names ++ ";"

/-- The function that runs one nest. -/
def function (text : Indented) (name : String) (c : Case) (nest : Nest) : Indented :=
  let opened :=
    (text.line ("static void " ++ name ++ "(" ++ arrayParameter c.arrayShape ++ ") \x7b")).indent
  let inLoops := nest.loops.zipIdx.foldl
    (fun text (l, k) => (text.line (loopHeader (nest.varNames.take k) l)).indent) opened
  let indices := (List.range nest.depth).map indexName
  let coordinate (index formula : String) := "long long " ++ index ++ " = " ++ formula ++ ";"
  let coordinates := List.zipWith coordinate indices nest.indexFormulas
  let statement := (inLoops.lines coordinates).line (assignment c.rule indices)
  let closed := nest.loops.foldl (fun text _ => text.dedent.line "\x7d") statement
  closed.dedent.line "\x7d"

/-- The statements that fill the input. -/
def fill (p : CProgram) (text : Indented) (input : InputKind) : Indented :=
  match input with
  | .random =>
    let opened := text.lines ["srand(" ++ toString p.seed.toNat ++ ");",
      "for (size_t k = 0; k < count; k++) \x7b"]
    (opened.indent.line
      ("cells[k] = (cell)(rand() % " ++ toString (p.maximum + 1) ++ ");")).dedent.line "\x7d"
  | .zeros => text.line "memset(a, 0, sizeof(a));"

/-- The statements that compare what is observed. -/
def comparison (observation : Observation) : List String :=
  match observation with
  | .cell point =>
    let cell := String.join (point.map fun v => bracket (toString v))
    ["int ok = a" ++ cell ++ " == b" ++ cell ++ ";",
      "printf(\"%lld %lld\\n\", (long long)a" ++ cell ++ ", (long long)b" ++ cell ++ ");"]
  | _ => ["int ok = memcmp(a, b, sizeof(a)) == 0;"]

/-- The main function: both nests run on copies of one input. -/
def mainFunction (p : CProgram) (text : Indented) (c : Case) : Indented :=
  let declared := (text.line "int main(void) \x7b").indent.lines [
    "static cell " ++ arrayDeclarator "a" c.arrayShape ++ ";",
    "static cell " ++ arrayDeclarator "b" c.arrayShape ++ ";",
    "cell *cells = (cell *)a;",
    "size_t count = sizeof(a) / sizeof(cells[0]);"]
  let run := (p.fill declared c.input).lines
    ["memcpy(b, a, sizeof(a));", "reference(a);", "transformed(b);"]
  let judged := (run.lines (comparison c.observation)).lines [
    "printf(\"" ++ c.name ++ ": %s\\n\", ok ? \"PASS\" : \"FAIL\");",
    "return ok ? 0 : 1;"]
  judged.dedent.line "\x7d"

/-- The head of the program: a comment, the included headers, the cell type and the extents. -/
def header (c : Case) : List String :=
  ["/* " ++ c.name ++ ": " ++ c.rule.render ++ " */",
    "#include <stdio.h>", "#include <stdlib.h>", "#include <string.h>", "",
    "typedef unsigned long long cell;"] ++
  (c.arrayShape.upper.zipIdx.map fun (extent, k) =>
    "#define " ++ extentName k ++ " " ++ toString extent)

/-- The program for a case whose array is indexed from zero. -/
def render (p : CProgram) (c : Case) : Except Error String := do
  if c.arrayShape.lower.any (· ≠ 0) then
    throw (.domain (.outOfBounds c.arrayShape.lower .zeroBasedArray))
  let start : Indented := { unit := "    " }
  let prelude := ((start.lines (header c)).newline.lines helpers).newline
  let tabled := match c.aux with
    | some g => (table prelude g).newline
    | none => prelude
  let reference := (function tabled "reference" c c.reference).newline
  let transformed := (function reference "transformed" c c.transformed).newline
  return (p.mainFunction transformed c).text

end CProgram

end AffineLoops
