import AffineLoops.Fault
import AffineLoops.Matrix.Basic
/-!
# Elementary row and column operations

The steps that the normal forms are built from: exchanging two rows or columns, negating a
column, and subtracting multiples of one column (or row) from the others. Each is total and leaves
the size alone; the checked forms are for callers whose positions may lie outside.

## Main definitions

- `DenseMatrix.swapRows`, `DenseMatrix.divideRow` — row operations over any numbers
- `IntMatrix.swapCols`, `IntMatrix.negateCol` — column operations over the integers
- `DenseMatrix.subRowMultiples`, `IntMatrix.subColMultiples` — many rows (columns) at once
- `IntMatrix.swapCols?` and its companions — the same, where a missing position is a fault

## Design notes

Subtracting multiples of one column from all others at once is the product of the single
subtractions in any order, since the source column never changes. A matrix without rows has no
entry that a column operation could touch, so the checked column operations accept it anywhere.
-/

namespace AffineLoops

/-- The transposition of `a` and `b`. -/
def swapIndex (a b k : Nat) : Nat :=
  if k = a then b else if k = b then a else k

theorem swapIndex_left (a b : Nat) : swapIndex a b a = b :=
  if_pos rfl

theorem swapIndex_of_ne {a b k : Nat} (ha : k ≠ a) (hb : k ≠ b) : swapIndex a b k = k := by
  rw [swapIndex, if_neg ha, if_neg hb]

namespace DenseMatrix

variable {α : Type} [OfNat α 0]

/-- Rows `a` and `b` exchanged. -/
def swapRows (m : DenseMatrix α) (a b : Nat) : DenseMatrix α :=
  ofFn m.rows m.cols fun i j => m.entry (swapIndex a b i) j

/-- Every row `i` less `q i` times row `source`. -/
def subRowMultiples [Sub α] [Mul α] (m : DenseMatrix α) (source : Nat) (q : Nat → α) :
    DenseMatrix α :=
  ofFn m.rows m.cols fun i j => m.entry i j - q i * m.entry source j

/-- Row `r` divided by a number. -/
def divideRow [Div α] (m : DenseMatrix α) (r : Nat) (divisor : α) : DenseMatrix α :=
  ofFn m.rows m.cols fun i j => if i = r then m.entry i j / divisor else m.entry i j

@[simp] theorem rows_swapRows (m : DenseMatrix α) (a b : Nat) : (m.swapRows a b).rows = m.rows := rfl

@[simp] theorem cols_swapRows (m : DenseMatrix α) (a b : Nat) : (m.swapRows a b).cols = m.cols := rfl

theorem entry_swapRows {m : DenseMatrix α} {a b i j : Nat} (hi : i < m.rows) (hj : j < m.cols) :
    (m.swapRows a b).entry i j = m.entry (swapIndex a b i) j := by
  rw [swapRows, entry_ofFn, if_pos ⟨hi, hj⟩]

@[simp] theorem rows_subRowMultiples [Sub α] [Mul α] (m : DenseMatrix α) (r : Nat) (q : Nat → α) :
    (m.subRowMultiples r q).rows = m.rows := rfl

@[simp] theorem cols_subRowMultiples [Sub α] [Mul α] (m : DenseMatrix α) (r : Nat) (q : Nat → α) :
    (m.subRowMultiples r q).cols = m.cols := rfl

theorem entry_subRowMultiples [Sub α] [Mul α] {m : DenseMatrix α} {r : Nat} {q : Nat → α}
    {i j : Nat} (hi : i < m.rows) (hj : j < m.cols) :
    (m.subRowMultiples r q).entry i j = m.entry i j - q i * m.entry r j := by
  rw [subRowMultiples, entry_ofFn, if_pos ⟨hi, hj⟩]

@[simp] theorem rows_divideRow [Div α] (m : DenseMatrix α) (r : Nat) (x : α) :
    (m.divideRow r x).rows = m.rows := rfl

@[simp] theorem cols_divideRow [Div α] (m : DenseMatrix α) (r : Nat) (x : α) :
    (m.divideRow r x).cols = m.cols := rfl

theorem entry_divideRow [Div α] {m : DenseMatrix α} {r : Nat} {x : α} {i j : Nat}
    (hi : i < m.rows) (hj : j < m.cols) :
    (m.divideRow r x).entry i j = if i = r then m.entry i j / x else m.entry i j := by
  rw [divideRow, entry_ofFn, if_pos ⟨hi, hj⟩]

end DenseMatrix

namespace IntMatrix

open DenseMatrix

/-- Columns `a` and `b` exchanged. -/
def swapCols (m : IntMatrix) (a b : Nat) : IntMatrix :=
  ofFn m.rows m.cols fun i j => m.entry i (swapIndex a b j)

/-- Column `c` negated. -/
def negateCol (m : IntMatrix) (c : Nat) : IntMatrix :=
  ofFn m.rows m.cols fun i j => if j = c then -m.entry i j else m.entry i j

/-- Every column `j` less `q j` times column `source`. -/
def subColMultiples (m : IntMatrix) (source : Nat) (q : Nat → Int) : IntMatrix :=
  ofFn m.rows m.cols fun i j => m.entry i j - q j * m.entry i source

@[simp] theorem rows_swapCols (m : IntMatrix) (a b : Nat) : (m.swapCols a b).rows = m.rows := rfl

@[simp] theorem cols_swapCols (m : IntMatrix) (a b : Nat) : (m.swapCols a b).cols = m.cols := rfl

theorem entry_swapCols {m : IntMatrix} {a b i j : Nat} (hi : i < m.rows) (hj : j < m.cols) :
    (m.swapCols a b).entry i j = m.entry i (swapIndex a b j) := by
  rw [swapCols, entry_ofFn, if_pos ⟨hi, hj⟩]

@[simp] theorem rows_negateCol (m : IntMatrix) (c : Nat) : (m.negateCol c).rows = m.rows := rfl

@[simp] theorem cols_negateCol (m : IntMatrix) (c : Nat) : (m.negateCol c).cols = m.cols := rfl

theorem entry_negateCol {m : IntMatrix} {c i j : Nat} (hi : i < m.rows) (hj : j < m.cols) :
    (m.negateCol c).entry i j = if j = c then -m.entry i j else m.entry i j := by
  rw [negateCol, entry_ofFn, if_pos ⟨hi, hj⟩]

@[simp] theorem rows_subColMultiples (m : IntMatrix) (c : Nat) (q : Nat → Int) :
    (m.subColMultiples c q).rows = m.rows := rfl

@[simp] theorem cols_subColMultiples (m : IntMatrix) (c : Nat) (q : Nat → Int) :
    (m.subColMultiples c q).cols = m.cols := rfl

theorem entry_subColMultiples {m : IntMatrix} {c : Nat} {q : Nat → Int} {i j : Nat}
    (hi : i < m.rows) (hj : j < m.cols) :
    (m.subColMultiples c q).entry i j = m.entry i j - q j * m.entry i c := by
  rw [subColMultiples, entry_ofFn, if_pos ⟨hi, hj⟩]

/-- The multiple `factor` at position `target` and nothing elsewhere. -/
def single (target : Nat) (factor : Int) (k : Nat) : Int :=
  if k = target then factor else 0

/-- Exchanges two columns; they must exist unless they are the same one. -/
def swapCols? (m : IntMatrix) (a b : Nat) : Except Fault IntMatrix :=
  if a = b ∨ m.rows = 0 ∨ (a < m.cols ∧ b < m.cols) then .ok (m.swapCols a b)
  else .error .indexOutOfRange

/-- Exchanges two rows, which must exist. -/
def swapRows? (m : IntMatrix) (a b : Nat) : Except Fault IntMatrix :=
  if a < m.rows ∧ b < m.rows then .ok (m.swapRows a b) else .error .indexOutOfRange

/-- Negates a column, which must exist. -/
def negateCol? (m : IntMatrix) (c : Nat) : Except Fault IntMatrix :=
  if m.rows = 0 ∨ c < m.cols then .ok (m.negateCol c) else .error .indexOutOfRange

/-- Subtracts a multiple of one column from another; both must exist unless the multiple is zero. -/
def subColMultiple? (m : IntMatrix) (target source : Nat) (factor : Int) :
    Except Fault IntMatrix :=
  if factor = 0 ∨ m.rows = 0 ∨ (target < m.cols ∧ source < m.cols) then
    .ok (m.subColMultiples source (single target factor))
  else .error .indexOutOfRange

/-- Subtracts a multiple of one row from another. Nothing happens, wherever the rows are, when the
multiple is zero or the two rows are the same one. -/
def subRowMultiple? (m : IntMatrix) (target source : Nat) (factor : Int) :
    Except Fault IntMatrix :=
  if factor = 0 ∨ target = source then .ok m
  else if target < m.rows ∧ source < m.rows then
    .ok (m.subRowMultiples source (single target factor))
  else .error .indexOutOfRange

end IntMatrix

end AffineLoops
