import AffineLoops.Matrix.Elementary
import AffineLoops.Proofs.Matrix.View
import Mathlib.LinearAlgebra.Matrix.SchurComplement
import Mathlib.LinearAlgebra.Matrix.Swap
/-!
# Row and column operations as products

Every row operation multiplies a matrix from the left, and every column operation from the right,
with a matrix that depends on the operation alone. Exchanging two rows or columns has determinant
-1, subtracting multiples of one from the others has determinant 1.

## Main definitions

- `subtraction` — the matrix that subtracts multiples of one row from all others
- `DenseMatrix.toMatrix_swapRows`, `DenseMatrix.toMatrix_subRowMultiples` — row operations
- `IntMatrix.IsColumnOperation`, `IntMatrix.IsRowOperation` — operations that multiply with a
  unimodular matrix
-/

namespace AffineLoops

open Matrix

section Elementary

variable {R : Type} [CommRing R] {n : ℕ}

/-- Multiplied from the left, it subtracts `q i` times row `s` from every row `i`. -/
def subtraction (s : Fin n) (q : Fin n → R) : Matrix (Fin n) (Fin n) R :=
  1 - vecMulVec q (Pi.single s 1)

theorem subtraction_mul_apply {c : ℕ} (s : Fin n) (q : Fin n → R) (m : Matrix (Fin n) (Fin c) R)
    (i : Fin n) (j : Fin c) : (subtraction s q * m) i j = m i j - q i * m s j := by
  rw [subtraction, Matrix.sub_mul, Matrix.one_mul, vecMulVec_mul, Matrix.sub_apply,
    vecMulVec_apply, single_one_vecMul]
  rfl

theorem mul_subtraction_transpose_apply {r : ℕ} (s : Fin n) (q : Fin n → R)
    (m : Matrix (Fin r) (Fin n) R) (i : Fin r) (j : Fin n) :
    (m * (subtraction s q)ᵀ) i j = m i j - q j * m i s := by
  rw [← Matrix.transpose_transpose m, ← Matrix.transpose_mul, Matrix.transpose_apply,
    subtraction_mul_apply]
  rfl

/-- Nothing is subtracted from the row that is subtracted, so volumes stay the same. -/
theorem det_subtraction {s : Fin n} {q : Fin n → R} (h : q s = 0) : (subtraction s q).det = 1 := by
  rw [subtraction, vecMulVec_eq Unit, det_one_sub_mul_comm]
  simp [Matrix.det_unique, Matrix.sub_apply, replicateRow_mul_replicateCol_apply, h]

theorem det_swap_of_ne {a b : Fin n} (h : a ≠ b) : (swap R a b).det = -1 := by
  rw [swap, det_permutation, Equiv.Perm.sign_swap h]
  simp

theorem det_swap_ne_zero [Nontrivial R] (a b : Fin n) : (swap R a b).det ≠ 0 := by
  by_cases h : a = b
  · simp [h, swap]
  · rw [det_swap_of_ne h]
    exact neg_ne_zero.mpr one_ne_zero

end Elementary

/-- The transposition of two positions below `n`. -/
theorem swap_apply_eq_swapIndex {n : ℕ} (a b k : Fin n) :
    (Equiv.swap a b k : ℕ) = swapIndex a b k := by
  rw [Equiv.swap_apply_def, swapIndex]
  simp only [Fin.ext_iff]
  split <;> [rfl; split <;> rfl]

namespace DenseMatrix

variable {R : Type} [CommRing R] {r c : ℕ}

theorem toMatrix_swapRows {m : DenseMatrix R} (hr : m.rows = r) (hc : m.cols = c) (a b : Fin r) :
    (m.swapRows a b).toMatrix r c = swap R a b * m.toMatrix r c := by
  ext i j
  rw [toMatrix_apply, entry_swapRows (by omega) (by omega), swap, PEquiv.toMatrix_toPEquiv_mul]
  simp [swap_apply_eq_swapIndex]

theorem toMatrix_subRowMultiples {m : DenseMatrix R} (hr : m.rows = r) (hc : m.cols = c)
    (s : Fin r) (q : ℕ → R) :
    (m.subRowMultiples s q).toMatrix r c = subtraction s (fun i => q i) * m.toMatrix r c := by
  ext i j
  rw [toMatrix_apply, entry_subRowMultiples (by omega) (by omega), subtraction_mul_apply]
  rfl

end DenseMatrix

namespace IntMatrix

open DenseMatrix

variable {n : ℕ}

/-- The operation multiplies every matrix with `n` columns with the same unimodular matrix. -/
def IsColumnOperation (n : ℕ) (op : IntMatrix → IntMatrix) : Prop :=
  ∃ e : Matrix (Fin n) (Fin n) ℤ, IsUnit e.det ∧ ∀ (m : IntMatrix) (r : ℕ),
    m.rows = r → m.cols = n → (op m).rows = r ∧ (op m).cols = n ∧
      (op m).toMatrix r n = m.toMatrix r n * e

theorem toMatrix_swapCols {m : IntMatrix} {r : ℕ} (hr : m.rows = r) (hc : m.cols = n)
    (a b : Fin n) : (m.swapCols a b).toMatrix r n = m.toMatrix r n * swap ℤ a b := by
  ext i j
  rw [toMatrix_apply, entry_swapCols (by omega) (by omega), swap, PEquiv.mul_toMatrix_toPEquiv]
  simp [swap_apply_eq_swapIndex]

theorem isColumnOperation_swapCols (a b : Fin n) : IsColumnOperation n (·.swapCols a b) := by
  refine ⟨swap ℤ a b, ?_, fun m r hr hc => ⟨hr, hc, toMatrix_swapCols hr hc a b⟩⟩
  rw [swap, det_permutation]
  exact (Units.isUnit _).map (Int.castRingHom ℤ)

theorem isColumnOperation_negateCol (c : Fin n) : IsColumnOperation n (·.negateCol c) := by
  refine ⟨Matrix.diagonal fun j => if j = c then -1 else 1, ?_, fun m r hr hc => ⟨hr, hc, ?_⟩⟩
  · rw [det_diagonal, Finset.prod_ite_eq' Finset.univ c]
    simp
  · ext i j
    rw [toMatrix_apply, entry_negateCol (by omega) (by omega), Matrix.mul_diagonal]
    by_cases h : j = c
    · simp [h]
    · simp [h, Fin.val_ne_of_ne h]

theorem isColumnOperation_subColMultiples (s : Fin n) {q : ℕ → ℤ} (h : q s = 0) :
    IsColumnOperation n (·.subColMultiples s q) := by
  refine ⟨(subtraction s fun j => q j)ᵀ, ?_, fun m r hr hc => ⟨hr, hc, ?_⟩⟩
  · rw [det_transpose, det_subtraction h]
    exact isUnit_one
  · ext i j
    rw [toMatrix_apply, entry_subColMultiples (by omega) (by omega),
      mul_subtraction_transpose_apply]
    rfl

/-- The operation multiplies every matrix with `n` rows with the same unimodular matrix, from the
left. -/
def IsRowOperation (n : ℕ) (op : IntMatrix → IntMatrix) : Prop :=
  ∃ e : Matrix (Fin n) (Fin n) ℤ, IsUnit e.det ∧ ∀ (m : IntMatrix) (c : ℕ),
    m.rows = n → m.cols = c → (op m).rows = n ∧ (op m).cols = c ∧
      (op m).toMatrix n c = e * m.toMatrix n c

theorem isRowOperation_swapRows (a b : Fin n) : IsRowOperation n (·.swapRows a b) := by
  refine ⟨swap ℤ a b, ?_, fun m c hr hc => ⟨hr, hc, toMatrix_swapRows hr hc a b⟩⟩
  rw [swap, det_permutation]
  exact (Units.isUnit _).map (Int.castRingHom ℤ)

theorem isRowOperation_subRowMultiples (s : Fin n) {q : ℕ → ℤ} (h : q s = 0) :
    IsRowOperation n (·.subRowMultiples s q) := by
  refine ⟨subtraction s fun i => q i, ?_, fun m c hr hc =>
    ⟨hr, hc, toMatrix_subRowMultiples hr hc s q⟩⟩
  rw [det_subtraction h]
  exact isUnit_one

end IntMatrix

end AffineLoops
