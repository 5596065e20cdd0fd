import AffineLoops.Point
/-!
# Dense matrices

A matrix is a table of entries with its two sizes in its type, so every row has the same length
and an empty matrix still knows its number of columns. Every operation builds its result entry by
entry with `ofFn`, and `entry_ofFn` reads it back, so that statements about operations reduce to
statements about entries.

## Main definitions

- `DenseMatrix`, `IntMatrix` — tables over a type, and over the integers
- `DenseMatrix.ofFn`, `DenseMatrix.entry` — the constructor and the reader of the other operations
- `IntMatrix.ofRows`, `IntMatrix.ofRowMajor` — checked construction from lists
- `IntMatrix.mul?`, `IntMatrix.mulVec?` — products, when the sizes agree
- `IntMatrix.render` — the written form `[[1, 2], [3, 4]]`
-/

namespace AffineLoops

/-- What is wrong with the shape of a matrix or of its operands. -/
inductive MatrixError where
  /-- A square matrix was required. -/
  | nonSquare (rows cols : Nat)
  /-- So many entries in row-major order fill no square matrix. -/
  | noSquareCount (count : Nat)
  /-- The matrix has no inverse. -/
  | singular
  /-- A row whose length differs from that of the first row. -/
  | ragged (row expected found : Nat)
  /-- Two sizes that have to agree differ. -/
  | dimensionMismatch (expected found : Nat)
deriving DecidableEq, Inhabited

/-- The wording of a matrix error. -/
def MatrixError.message : MatrixError → String
  | .nonSquare rows cols => s!"expected a square matrix, got {rows}x{cols}"
  | .noSquareCount count => s!"{count} entries do not form a square matrix"
  | .singular => "transform has determinant 0 and no inverse"
  | .ragged row expected found => s!"row {row} has {found} entries, expected {expected}"
  | .dimensionMismatch expected found => s!"dimension mismatch: expected {expected}, found {found}"

/-- A table of `rows` times `cols` entries. -/
structure DenseMatrix (α : Type) where
  rows : Nat
  /-- Number of columns, also when there are no rows. -/
  cols : Nat
  entries : Vector (Vector α cols) rows
deriving DecidableEq

/-- A matrix of integers. -/
abbrev IntMatrix := DenseMatrix Int

namespace DenseMatrix

variable {α β : Type}

/-- The matrix whose entry at row `i` and column `j` is `f i j`. -/
def ofFn (rows cols : Nat) (f : Nat → Nat → α) : DenseMatrix α :=
  ⟨rows, cols, Vector.ofFn fun i => Vector.ofFn fun j => f i j⟩

instance : Inhabited (DenseMatrix α) :=
  ⟨⟨0, 0, #v[]⟩⟩

/-- The entry at row `i` and column `j`, if the matrix has one there. -/
def get? (m : DenseMatrix α) (i j : Nat) : Option α :=
  m.entries[i]? >>= (·[j]?)

/-- The entry at row `i` and column `j`, zero outside the matrix. -/
def entry [OfNat α 0] (m : DenseMatrix α) (i j : Nat) : α :=
  (m.get? i j).getD 0

/-- The entries as a list of rows. -/
def toRows (m : DenseMatrix α) : List (List α) :=
  m.entries.toList.map Vector.toList

/-- The row `i`, if there is one. -/
def row? (m : DenseMatrix α) (i : Nat) : Option (List α) :=
  m.entries[i]?.map Vector.toList

/-- The column `j`, if every row has one; a matrix without rows has an empty column anywhere. -/
def column? (m : DenseMatrix α) (j : Nat) : Option (List α) :=
  m.entries.toList.mapM (·[j]?)

/-- The matrix with `f` applied to every entry. -/
def map (f : α → β) (m : DenseMatrix α) : DenseMatrix β :=
  ⟨m.rows, m.cols, m.entries.map (·.map f)⟩

/-- As many rows as columns. -/
def isSquare (m : DenseMatrix α) : Bool :=
  m.rows == m.cols

@[simp] theorem rows_ofFn (r c : Nat) (f : Nat → Nat → α) : (ofFn r c f).rows = r := rfl

@[simp] theorem cols_ofFn (r c : Nat) (f : Nat → Nat → α) : (ofFn r c f).cols = c := rfl

theorem get?_ofFn (r c : Nat) (f : Nat → Nat → α) (i j : Nat) :
    (ofFn r c f).get? i j = if i < r ∧ j < c then some (f i j) else none := by
  unfold get? ofFn
  by_cases hi : i < r <;> by_cases hj : j < c <;> simp [hi, hj]

theorem get?_map (f : α → β) (m : DenseMatrix α) (i j : Nat) :
    (m.map f).get? i j = (m.get? i j).map f := by
  unfold get? map
  by_cases hi : i < m.rows <;> by_cases hj : j < m.cols <;> simp [hi, hj]

theorem entry_ofFn [OfNat α 0] (r c : Nat) (f : Nat → Nat → α) (i j : Nat) :
    (ofFn r c f).entry i j = if i < r ∧ j < c then f i j else 0 := by
  unfold entry
  rw [get?_ofFn]
  split <;> rfl

/-- Outside the matrix every entry reads as zero. -/
theorem entry_eq_zero [OfNat α 0] {m : DenseMatrix α} {i j : Nat} (h : ¬(i < m.rows ∧ j < m.cols)) :
    m.entry i j = 0 := by
  unfold entry get?
  by_cases hi : i < m.rows
  · have hj : ¬j < m.cols := fun hj => h ⟨hi, hj⟩
    simp [hi, hj]
  · simp [hi]

/-- Two matrices of one size with the same entries are equal. -/
theorem ext_get? {a b : DenseMatrix α} (hr : a.rows = b.rows) (hc : a.cols = b.cols)
    (h : ∀ i j, a.get? i j = b.get? i j) : a = b := by
  obtain ⟨r, c, e⟩ := a
  obtain ⟨r', c', e'⟩ := b
  dsimp only at hr hc
  subst hr hc
  congr 1
  ext i hi j hj
  simpa [get?, hi, hj] using h i j

end DenseMatrix

namespace IntMatrix

open DenseMatrix

/-- The zero matrix of the given size. -/
def zeros (rows cols : Nat) : IntMatrix :=
  ofFn rows cols fun _ _ => 0

/-- The identity matrix on `n` axes. -/
def identity (n : Nat) : IntMatrix :=
  ofFn n n fun i j => if i = j then 1 else 0

/-- The matrix with the given rows, which must all be as long as the first. -/
def ofRows (data : List (List Int)) : Except MatrixError IntMatrix :=
  let cols := (data.head?.map List.length).getD 0
  match data.zipIdx.find? (fun (row, _) => row.length ≠ cols) with
  | some (row, i) => .error (.ragged i cols row.length)
  | none => .ok (ofFn data.length cols fun i j => ((data[i]?.bind (·[j]?)).getD 0))

/-- The square matrix with the given entries in row-major order. -/
def ofRowMajor (entries : List Int) : Except MatrixError IntMatrix :=
  match (List.range (entries.length + 1)).find? (fun n => n * n = entries.length) with
  | none | some 0 => .error (.noSquareCount entries.length)
  | some n => .ok (ofFn n n fun i j => (entries[i * n + j]?).getD 0)

/-- The matrix with one entry replaced; a position outside changes nothing. -/
def set (m : IntMatrix) (i j : Nat) (value : Int) : IntMatrix :=
  ofFn m.rows m.cols fun r c => if r = i ∧ c = j then value else m.entry r c

/-- Rows and columns exchanged. -/
def transpose (m : IntMatrix) : IntMatrix :=
  ofFn m.cols m.rows fun i j => m.entry j i

/-- The matrix product, when the inner sizes agree. -/
def mul? (a b : IntMatrix) : Option IntMatrix :=
  if a.cols = b.rows then
    some (ofFn a.rows b.cols fun i j =>
      ((List.range a.cols).map fun k => a.entry i k * b.entry k j).foldr (· + ·) 0)
  else none

/-- The image of a vector, when it has one entry per column. -/
def mulVec? (m : IntMatrix) (v : Point) : Option Point :=
  if m.cols = v.length then some (m.toRows.map (Point.dot · v)) else none

/-- No nonzero entry stands right of the diagonal. -/
def isLowerTriangular (m : IntMatrix) : Bool :=
  (List.range m.rows).all fun i => (List.range m.cols).all fun j => j ≤ i || m.entry i j == 0

/-- The entries are zeros apart from a single 1 or -1. -/
def isSignedUnit (entries : List Int) : Bool :=
  entries.all (fun x => x == 0 || x == 1 || x == -1) && (entries.filter (· ≠ 0)).length == 1

/-- Every row and every column holds exactly one nonzero entry, a 1 or a -1. -/
def isSignedPermutation (m : IntMatrix) : Bool :=
  m.isSquare && m.toRows.all isSignedUnit && m.transpose.toRows.all isSignedUnit

/-- The rows between square brackets, each as a bracketed list. -/
def render (m : IntMatrix) : String :=
  "[" ++ ", ".intercalate (m.toRows.map Point.render) ++ "]"

end IntMatrix

end AffineLoops
