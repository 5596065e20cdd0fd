import AffineLoops.Case.Basic
/-!
# Longest common subsequences

The table of the longest common subsequence of two strings, as a case: cell `(i, j)` holds the
length for the first `i` and the first `j` characters. The derived nest runs along the diagonals,
and the last cell of its table is the length for the whole strings.

## Main definitions

- `matchGrid` — where the characters of the two strings agree
- `CaseSpec.lcs` — the case of two strings
- `lcsLength` — the length, computed by the derived nest
-/

namespace AffineLoops

/-- The grid that holds 1 at `(i, j)` where the `i`-th character of the first string, counted from
one, is the `j`-th of the second, and 0 elsewhere. -/
def matchGrid (shape : Domain) (left right : Array Char) : Grid :=
  Grid.ofFn shape fun p =>
    match p with
    | [i, j] =>
      if 0 < i ∧ 0 < j ∧ left[(i - 1).toNat]? = right[(j - 1).toNat]? then 1 else 0
    | _ => 0

/-- The table of the longest common subsequence of two strings, on the diagonals. -/
def CaseSpec.lcs (left right : String) : Except Error CaseSpec := do
  let u := left.toList.toArray
  let v := right.toList.toArray
  let m : Int := u.size
  let n : Int := v.size
  let arrayShape ← Domain.rect 0 (m + 1) 0 (n + 1)
  return {
    name := "lcs"
    domain := ← Domain.rect 1 (m + 1) 1 (n + 1)
    arrayShape := arrayShape
    transform := ← (NamedTransform.wavefront 0 1).matrix 2
    dependences := ← DependencePattern.ofOffsets 2 [[-1, 0], [0, -1], [-1, -1]]
    rule := .lcs
    observation := .cell [m, n]
    input := .zeros
    aux := some (matchGrid arrayShape u v) }

/-- Length of the longest common subsequence of two strings, by characters. -/
def lcsLength (left right : String) : Except Error Cell := do
  if left.isEmpty || right.isEmpty then return 0
  let c ← Case.build (← CaseSpec.lcs left right)
  let table ← c.execute c.transformed (.zeros c.arrayShape)
  table.get [(left.length : Int), (right.length : Int)]

end AffineLoops
