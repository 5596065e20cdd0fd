import AffineLoops.Matrix.Determinant
import AffineLoops.Proofs.Iteration
import AffineLoops.Proofs.Matrix.Operations
import Mathlib.Algebra.Order.Ring.Rat
import Mathlib.LinearAlgebra.Matrix.Block
import Mathlib.LinearAlgebra.Matrix.NonsingularInverse
/-!
# Correctness of the eliminations

The elimination for the determinant keeps the determinant up to the sign that it records, and ends
with a triangular table whose diagonal it has multiplied up. The reduction of a table with the
identity to its right multiplies it from the left until the left half is the identity, so the right
half ends as the inverse. Either one runs out of pivots exactly on singular tables.

## Main definitions

- `DenseMatrix.ClearedBelow`, `DenseMatrix.UnitColumns` — what each elimination has established
- `DenseMatrix.eliminate_eq_det` — the first elimination computes the determinant
- `DenseMatrix.reduce?_augment_cases` — the second one computes the inverse, if there is one
-/

namespace AffineLoops

open Matrix

namespace DenseMatrix

variable {m : DenseMatrix ℚ} {n k : ℕ}

@[simp] theorem rows_bringPivot (m : DenseMatrix ℚ) (k : ℕ) : (m.bringPivot k).rows = m.rows := rfl

@[simp] theorem cols_bringPivot (m : DenseMatrix ℚ) (k : ℕ) : (m.bringPivot k).cols = m.cols := rfl

/-! ### The choice of the pivot -/

/-- Keeping the better of two positions all along a list gives the best of them. -/
theorem foldl_best {w : ℕ → ℚ} (l : List ℕ) (start : ℕ) :
    let best := l.foldl (fun best i => if w best < w i then i else best) start
    (best = start ∨ best ∈ l) ∧ w start ≤ w best ∧ ∀ i ∈ l, w i ≤ w best := by
  induction l generalizing start with
  | nil => simp
  | cons a l ih =>
    obtain ⟨hmem, hstart, hall⟩ := ih (if w start < w a then a else start)
    simp only [List.foldl_cons, List.mem_cons, forall_eq_or_imp]
    generalize l.foldl _ _ = best at hmem hstart hall ⊢
    split at hmem
    · next hlt =>
      rw [if_pos hlt] at hstart
      exact ⟨Or.inr hmem, hlt.le.trans hstart, hstart, hall⟩
    · next hlt =>
      rw [if_neg hlt] at hstart
      refine ⟨?_, hstart, (not_lt.mp hlt).trans hstart, hall⟩
      rcases hmem with h | h
      · exact Or.inl h
      · exact Or.inr (Or.inr h)

theorem pivotRow_mem (hk : k < m.rows) : k ≤ m.pivotRow k ∧ m.pivotRow k < m.rows := by
  obtain ⟨hmem, -, -⟩ := foldl_best (w := fun i => (m.entry i k).abs)
    (List.range' (k + 1) (m.rows - (k + 1))) k
  rcases hmem with h | h
  · rw [pivotRow, h]
    exact ⟨le_rfl, hk⟩
  · rw [pivotRow]
    have hrange := List.mem_range'_1.mp h
    omega

/-- The column is zero from the diagonal on if its pivot is. -/
theorem entry_eq_zero_of_pivot (hpivot : m.entry (m.pivotRow k) k = 0) {i : ℕ} (hki : k ≤ i)
    (hi : i < m.rows) : m.entry i k = 0 := by
  obtain ⟨-, hstart, hall⟩ := foldl_best (w := fun i => (m.entry i k).abs)
    (List.range' (k + 1) (m.rows - (k + 1))) k
  have hle : (m.entry i k).abs ≤ (m.entry (m.pivotRow k) k).abs := by
    by_cases hik : i = k
    · subst hik
      exact hstart
    · exact hall i (List.mem_range'_1.mpr (by omega))
  rw [hpivot, Rat.abs_zero] at hle
  exact Rat.abs_eq_zero_iff.mp (le_antisymm hle Rat.abs_nonneg)

theorem entry_bringPivot {i j : ℕ} (hi : i < m.rows) (hj : j < m.cols) :
    (m.bringPivot k).entry i j = m.entry (swapIndex k (m.pivotRow k) i) j :=
  entry_swapRows hi hj

theorem entry_bringPivot_self (hk : k < m.rows) (hc : k < m.cols) :
    (m.bringPivot k).entry k k = m.entry (m.pivotRow k) k := by
  rw [entry_bringPivot hk hc, swapIndex_left]

/-- A square table is singular when its leading `k` columns vanish below row `k` and the next one
does so too. The lower right block then has a column of zeros. -/
theorem det_eq_zero_of_column {a : Matrix (Fin n) (Fin n) ℚ} (hk : k < n)
    (hleft : ∀ i j : Fin n, k ≤ i → (j : ℕ) < k → a i j = 0)
    (hcolumn : ∀ i : Fin n, k ≤ i → a i ⟨k, hk⟩ = 0) : a.det = 0 := by
  rw [twoBlockTriangular_det a (fun i => (i : ℕ) < k) fun i hi j hj => hleft i j (not_lt.mp hi) hj]
  have hzero : (toSquareBlockProp a fun i => ¬(i : ℕ) < k).det = 0 :=
    det_eq_zero_of_column_eq_zero ⟨⟨k, hk⟩, lt_irrefl k⟩ fun i => hcolumn i (not_lt.mp i.2)
  rw [hzero, mul_zero]

/-! ### The determinant -/

/-- The leading `k` columns are zero below the diagonal. -/
def ClearedBelow (m : DenseMatrix ℚ) (k : ℕ) : Prop :=
  ∀ j < k, ∀ i, j < i → m.entry i j = 0

/-- The rows from `k` on are zero in the cleared columns, so exchanging two of them shows nothing
there. -/
theorem ClearedBelow.bringPivot (h : ClearedBelow m k) (hk : k < m.rows) :
    ClearedBelow (m.bringPivot k) k := by
  intro j hj i hij
  by_cases hin : i < m.rows ∧ j < m.cols
  swap
  · exact entry_eq_zero hin
  have hp := pivotRow_mem hk
  rw [entry_bringPivot hin.1 hin.2, swapIndex]
  apply h j hj
  split <;> [omega; split <;> omega]

theorem ClearedBelow.clearBelow (h : ClearedBelow m k) (hk : k < m.rows)
    (hpivot : m.entry k k ≠ 0) : ClearedBelow (m.clearBelow k) (k + 1) := by
  intro j hj i hij
  by_cases hin : i < m.rows ∧ j < m.cols
  swap
  · exact entry_eq_zero hin
  rw [DenseMatrix.clearBelow, entry_subRowMultiples hin.1 hin.2]
  by_cases hjk : j = k
  · subst hjk
    rw [if_pos hij, div_mul_cancel₀ _ hpivot, sub_self]
  · rw [h j (by omega) i hij, h j (by omega) k (by omega), mul_zero, sub_zero]

/-- The state of the elimination after `k` columns, for a table with determinant `d`: up to a sign
the table still has that determinant, and the product is that of its first `k` diagonal entries. -/
structure Elimination.Invariant (n : ℕ) (d : ℚ) (k : ℕ) (s : Elimination) : Prop where
  rows : s.table.rows = n
  cols : s.table.cols = n
  cleared : ClearedBelow s.table k
  product : ∃ sign : ℚ, d = sign * (s.table.toMatrix n n).det ∧
    s.product = sign * ∏ j ∈ Finset.range k, s.table.entry j j

/-- Moving the pivot up changes the determinant by the recorded sign. -/
theorem det_bringPivot (hr : m.rows = n) (hc : m.cols = n) (hk : k < n) :
    (m.toMatrix n n).det =
      (if m.pivotRow k = k then 1 else -1) * ((m.bringPivot k).toMatrix n n).det := by
  have hp := pivotRow_mem (m := m) (hr ▸ hk)
  have hview := toMatrix_swapRows hr hc ⟨k, hk⟩ ⟨m.pivotRow k, hr ▸ hp.2⟩
  rw [DenseMatrix.bringPivot, hview, det_mul]
  split
  · next h => simp [h, Matrix.swap]
  · next h =>
    rw [det_swap_of_ne fun heq => h (Fin.ext_iff.mp heq).symm]
    ring

theorem det_clearBelow (hr : m.rows = n) (hc : m.cols = n) (hk : k < n) :
    ((m.clearBelow k).toMatrix n n).det = (m.toMatrix n n).det := by
  have hview := toMatrix_subRowMultiples hr hc ⟨k, hk⟩ fun i =>
    if k < i then m.entry i k / m.entry k k else 0
  rw [DenseMatrix.clearBelow, hview, det_mul, det_subtraction (by simp), one_mul]

/-- Clearing a column leaves the diagonal entries of the rows down to it alone. -/
theorem entry_clearBelow_diagonal {j : ℕ} (hj : j ≤ k) (hr : j < m.rows) (hc : j < m.cols) :
    (m.clearBelow k).entry j j = m.entry j j := by
  rw [DenseMatrix.clearBelow, entry_subRowMultiples hr hc, if_neg (by omega), zero_mul, sub_zero]

/-- One column of the elimination, or a zero determinant. -/
theorem Elimination.Invariant.step {d : ℚ} {s : Elimination} (h : s.Invariant n d k) (hk : k < n) :
    (∃ s', s.step? k = some s' ∧ s'.Invariant n d (k + 1)) ∨ s.step? k = none ∧ d = 0 := by
  obtain ⟨sign, hdet, hprod⟩ := h.product
  have hkr : k < s.table.rows := h.rows ▸ hk
  have hkc : k < s.table.cols := h.cols ▸ hk
  have hpivot := entry_bringPivot_self hkr hkc
  have hdet' := det_bringPivot h.rows h.cols hk
  have hcleared := h.cleared.bringPivot hkr
  have hdiag : ∀ j < k, (s.table.bringPivot k).entry j j = s.table.entry j j := by
    intro j hj
    have hp := pivotRow_mem hkr
    rw [entry_bringPivot (by omega) (by omega), swapIndex_of_ne (by omega) (by omega)]
  unfold Elimination.step?
  by_cases hzero : (s.table.bringPivot k).entry k k = 0
  · -- the pivot is a greatest entry, so the column is zero from row `k` on
    refine Or.inr ⟨by simp [hzero], ?_⟩
    have hsing : (s.table.toMatrix n n).det = 0 := by
      apply det_eq_zero_of_column hk
      · intro i j hi hj
        exact h.cleared j hj i (by omega)
      · intro i hi
        exact entry_eq_zero_of_pivot (hpivot ▸ hzero) hi (by rw [h.rows]; exact i.2)
    rw [hdet, hsing, mul_zero]
  · refine Or.inl ⟨_, if_neg hzero, h.rows, h.cols, hcleared.clearBelow hkr hzero,
      sign * if s.table.pivotRow k = k then 1 else -1, ?_, ?_⟩
    -- the sign takes up the exchange, and clearing changes no determinant and no finished pivot
    · change d = _ * (((s.table.bringPivot k).clearBelow k).toMatrix n n).det
      rw [hdet, hdet', det_clearBelow (m := s.table.bringPivot k) h.rows h.cols hk, mul_assoc]
    · change (if s.table.pivotRow k = k then s.product else -s.product) * _ =
        _ * ∏ j ∈ Finset.range (k + 1), ((s.table.bringPivot k).clearBelow k).entry j j
      have hkeep : ∏ j ∈ Finset.range k, ((s.table.bringPivot k).clearBelow k).entry j j =
          ∏ j ∈ Finset.range k, s.table.entry j j := by
        refine Finset.prod_congr rfl fun j hj => ?_
        have hj := Finset.mem_range.mp hj
        rw [entry_clearBelow_diagonal (m := s.table.bringPivot k) hj.le (hj.trans hkr)
          (hj.trans hkc), hdiag j hj]
      have hlast : ((s.table.bringPivot k).clearBelow k).entry k k =
          (s.table.bringPivot k).entry k k := entry_clearBelow_diagonal le_rfl hkr hkc
      rw [Finset.prod_range_succ, hkeep, hlast, hprod]
      split <;> ring

/-- The computed determinant of a square table of rationals. -/
theorem eliminate_eq_det (hr : m.rows = n) (hc : m.cols = n) :
    eliminate m = (m.toMatrix n n).det := by
  have hstart : (Elimination.mk m 1).Invariant n (m.toMatrix n n).det 0 :=
    ⟨hr, hc, fun j hj => absurd hj (Nat.not_lt_zero j), 1, by simp, by simp⟩
  have hloop := foldlM_range_induction (f := Elimination.step?) n hstart
    (Q := (m.toMatrix n n).det = 0) fun k hk s hs => hs.step hk
  unfold eliminate
  rw [hr]
  rcases hloop with ⟨s, hs, hinv⟩ | ⟨hnone, hzero⟩
  · rw [hs]
    obtain ⟨sign, hdet, hprod⟩ := hinv.product
    have hupper : (s.table.toMatrix n n).IsUpperTriangular := fun i j hij =>
      hinv.cleared j j.2 i hij
    change s.product = _
    rw [hprod, hdet, det_of_isUpperTriangular hupper,
      ← Fin.prod_univ_eq_prod_range (fun j => s.table.entry j j)]
    rfl
  · rw [hnone, hzero]

/-! ### The inverse -/

/-- The leading `k` columns are those of the identity. -/
def UnitColumns (m : DenseMatrix ℚ) (k : ℕ) : Prop :=
  ∀ j < k, ∀ i < m.rows, m.entry i j = if i = j then 1 else 0

/-- The table is an invertible matrix times `a`. -/
def IsMultiple {c : ℕ} (a : Matrix (Fin n) (Fin c) ℚ) (m : DenseMatrix ℚ) : Prop :=
  ∃ e : Matrix (Fin n) (Fin n) ℚ, e.det ≠ 0 ∧ m.toMatrix n c = e * a

theorem IsMultiple.mul {c : ℕ} {a : Matrix (Fin n) (Fin c) ℚ} {m' : DenseMatrix ℚ}
    (h : IsMultiple a m) {e : Matrix (Fin n) (Fin n) ℚ} (he : e.det ≠ 0)
    (hm : m'.toMatrix n c = e * m.toMatrix n c) : IsMultiple a m' := by
  obtain ⟨e', he', hm'⟩ := h
  exact ⟨e * e', by rw [det_mul]; exact mul_ne_zero he he', by rw [hm, hm', Matrix.mul_assoc]⟩

/-- The state of the reduction of `a` after `k` columns. -/
structure ReductionInvariant (a : Matrix (Fin n) (Fin (2 * n)) ℚ) (k : ℕ)
    (m : DenseMatrix ℚ) : Prop where
  rows : m.rows = n
  cols : m.cols = 2 * n
  unitColumns : UnitColumns m k
  multiple : IsMultiple a m

/-- The rows from `k` on are zero in the columns that are done, so exchanging two of them shows
nothing there. -/
theorem UnitColumns.bringPivot (h : UnitColumns m k) (hk : k < m.rows) (hc : k ≤ m.cols) :
    UnitColumns (m.bringPivot k) k := by
  intro j hj i hi
  have hi : i < m.rows := hi
  have hp := pivotRow_mem hk
  rw [entry_bringPivot hi (by omega), swapIndex]
  split
  · rw [h j hj _ hp.2, if_neg (by omega), if_neg (by omega)]
  · split
    · rw [h j hj _ hk, if_neg (by omega), if_neg (by omega)]
    · exact h j hj i hi

/-- Dividing the pivot row and subtracting it from all others finishes column `k` without touching
those before it, where the pivot row is zero. -/
theorem UnitColumns.reduce (h : UnitColumns m k) (hk : k < m.rows) (hc : k < m.cols)
    (hpivot : m.entry k k ≠ 0) :
    UnitColumns ((m.divideRow k (m.entry k k)).subRowMultiples k fun i =>
      if i = k then 0 else (m.divideRow k (m.entry k k)).entry i k) (k + 1) := by
  intro j hj i hi
  obtain ⟨d, hd⟩ : ∃ d, d = m.divideRow k (m.entry k k) := ⟨_, rfl⟩
  have hdr : d.rows = m.rows := by rw [hd, rows_divideRow]
  have hdc : d.cols = m.cols := by rw [hd, cols_divideRow]
  have hentry : ∀ r < m.rows, ∀ c < m.cols,
      d.entry r c = if r = k then m.entry r c / m.entry k k else m.entry r c := fun r hr c hc => by
    rw [hd, entry_divideRow hr hc]
  have hi : i < m.rows := hi
  rw [← hd, entry_subRowMultiples (by omega) (by omega)]
  by_cases hjk : j = k
  · subst hjk
    have hone : d.entry j j = 1 := by rw [hentry j hk j hc, if_pos rfl, div_self hpivot]
    by_cases hij : i = j
    · subst hij
      rw [if_pos rfl, if_pos rfl, hone, zero_mul, sub_zero]
    · rw [if_neg hij, if_neg hij, hone, mul_one, sub_self]
  · have hzero : d.entry k j = 0 := by
      rw [hentry k hk j (by omega), if_pos rfl, h j (by omega) k hk, if_neg (by omega), zero_div]
    rw [hzero, mul_zero, sub_zero, hentry i hi j (by omega)]
    split
    · next hik =>
      rw [h j (by omega) i hi, if_neg (by omega), zero_div]
    · exact h j (by omega) i hi

theorem toMatrix_divideRow {c : ℕ} (hr : m.rows = n) (hc : m.cols = c) (i : Fin n) (x : ℚ) :
    (m.divideRow i x).toMatrix n c =
      Matrix.diagonal (fun r => if r = i then x⁻¹ else 1) * m.toMatrix n c := by
  ext r j
  rw [toMatrix_apply, entry_divideRow (by omega) (by omega), Matrix.diagonal_mul]
  by_cases h : r = i
  · rw [if_pos (Fin.ext_iff.mp h), if_pos h, div_eq_inv_mul]
    rfl
  · rw [if_neg (Fin.val_ne_of_ne h), if_neg h, one_mul]
    rfl

theorem reduceColumn?_eq_none (h : (m.bringPivot k).entry k k = 0) : m.reduceColumn? k = none := by
  simp only [DenseMatrix.reduceColumn?, if_pos h]

theorem reduceColumn?_eq_some (h : (m.bringPivot k).entry k k ≠ 0) :
    m.reduceColumn? k = some
      (((m.bringPivot k).divideRow k ((m.bringPivot k).entry k k)).subRowMultiples k fun i =>
        if i = k then 0
        else ((m.bringPivot k).divideRow k ((m.bringPivot k).entry k k)).entry i k) := by
  simp only [DenseMatrix.reduceColumn?, if_neg h]

theorem IsMultiple.bringPivot {c : ℕ} {a : Matrix (Fin n) (Fin c) ℚ} (h : IsMultiple a m)
    (hr : m.rows = n) (hc : m.cols = c) (hk : k < n) : IsMultiple a (m.bringPivot k) := by
  have hp := (pivotRow_mem (m := m) (hr ▸ hk)).2
  refine h.mul ?_ (toMatrix_swapRows hr hc ⟨k, hk⟩ ⟨m.pivotRow k, hr ▸ hp⟩)
  exact det_swap_ne_zero _ _

theorem IsMultiple.divideRow {c : ℕ} {a : Matrix (Fin n) (Fin c) ℚ} {x : ℚ} (h : IsMultiple a m)
    (hr : m.rows = n) (hc : m.cols = c) (hk : k < n) (hx : x ≠ 0) :
    IsMultiple a (m.divideRow k x) := by
  refine h.mul ?_ (toMatrix_divideRow hr hc ⟨k, hk⟩ x)
  rw [det_diagonal, Finset.prod_ite_eq' Finset.univ, if_pos (Finset.mem_univ _)]
  exact inv_ne_zero hx

theorem IsMultiple.subRowMultiples {c : ℕ} {a : Matrix (Fin n) (Fin c) ℚ} {q : ℕ → ℚ}
    (h : IsMultiple a m) (hr : m.rows = n) (hc : m.cols = c) (hk : k < n) (hq : q k = 0) :
    IsMultiple a (m.subRowMultiples k q) := by
  refine h.mul ?_ (toMatrix_subRowMultiples hr hc ⟨k, hk⟩ q)
  rw [det_subtraction hq]
  exact one_ne_zero

/-- The left half of a table. -/
def leftHalf (a : Matrix (Fin n) (Fin (2 * n)) ℚ) : Matrix (Fin n) (Fin n) ℚ :=
  a.submatrix id (Fin.castLE (by omega))

/-- A column without a pivot shows that the left half of the initial table is singular. -/
theorem ReductionInvariant.det_leftHalf {a : Matrix (Fin n) (Fin (2 * n)) ℚ}
    (h : ReductionInvariant a k m) (hk : k < n) (hzero : (m.bringPivot k).entry k k = 0) :
    (leftHalf a).det = 0 := by
  obtain ⟨e, he, hea⟩ := h.multiple
  -- the product acts on each column alone, so the left half of the table is that of `a` times `e`
  have hview : m.toMatrix n n = e * leftHalf a := by
    ext i j
    exact congrFun (congrFun hea i) (Fin.castLE (by omega) j)
  have hsing : (m.toMatrix n n).det = 0 := by
    apply det_eq_zero_of_column hk
    · intro i j hi hj
      rw [toMatrix_apply, h.unitColumns j hj i (by rw [h.rows]; exact i.2), if_neg (by omega)]
    · intro i hi
      rw [entry_bringPivot_self (h.rows ▸ hk) (by rw [h.cols]; omega)] at hzero
      exact entry_eq_zero_of_pivot hzero hi (by rw [h.rows]; exact i.2)
  rw [hview, det_mul] at hsing
  exact (mul_eq_zero.mp hsing).resolve_left he

/-- One column of the reduction, or a singular left half. -/
theorem ReductionInvariant.step {a : Matrix (Fin n) (Fin (2 * n)) ℚ}
    (h : ReductionInvariant a k m) (hk : k < n) :
    (∃ m', m.reduceColumn? k = some m' ∧ ReductionInvariant a (k + 1) m') ∨
      m.reduceColumn? k = none ∧ (leftHalf a).det = 0 := by
  have hkr : k < m.rows := h.rows ▸ hk
  have hkc : k < m.cols := by rw [h.cols]; omega
  by_cases hzero : (m.bringPivot k).entry k k = 0
  · exact Or.inr ⟨reduceColumn?_eq_none hzero, h.det_leftHalf hk hzero⟩
  · refine Or.inl ⟨_, reduceColumn?_eq_some hzero, h.rows, h.cols, ?_, ?_⟩
    · exact (h.unitColumns.bringPivot hkr hkc.le).reduce hkr hkc hzero
    · have hbring := h.multiple.bringPivot h.rows h.cols hk
      have hdivide := hbring.divideRow h.rows h.cols hk hzero
      exact hdivide.subRowMultiples h.rows h.cols hk (if_pos rfl)

theorem entry_augment {i j : ℕ} (hr : m.rows = n) (hi : i < n) (hj : j < 2 * n) :
    (augment m).entry i j = if j < n then m.entry i j else if j = n + i then 1 else 0 := by
  subst hr
  rw [augment, entry_ofFn, if_pos ⟨hi, hj⟩]

/-- The reduction of a table with the identity to its right ends with the inverse there, or at a
column without a pivot if there is no inverse. -/
theorem reduce?_augment_cases (hr : m.rows = n) :
    (∃ t, reduce? (augment m) = some t ∧ t.rows = n ∧
      ∃ e : Matrix (Fin n) (Fin n) ℚ, e * m.toMatrix n n = 1 ∧
        ∀ i j : Fin n, t.entry i (n + j) = e i j) ∨
      reduce? (augment m) = none ∧ (m.toMatrix n n).det = 0 := by
  obtain ⟨a, ha⟩ : ∃ a, a = (augment m).toMatrix n (2 * n) := ⟨_, rfl⟩
  have hleft : leftHalf a = m.toMatrix n n := by
    ext i j
    rw [ha]
    exact (entry_augment hr i.2 (by omega)).trans (if_pos j.2)
  have hstart : ReductionInvariant a 0 (augment m) :=
    ⟨hr, by rw [augment, cols_ofFn, hr], fun j hj => absurd hj (Nat.not_lt_zero j), 1,
      by rw [det_one]; exact one_ne_zero, by rw [Matrix.one_mul, ha]⟩
  have hloop := foldlM_range_induction (f := DenseMatrix.reduceColumn?) n hstart
    (Q := (leftHalf a).det = 0) fun k hk t ht => ht.step hk
  have hrows : (augment m).rows = n := hr
  rcases hloop with ⟨t, ht, hinv⟩ | ⟨hnone, hzero⟩
  · obtain ⟨e, -, hea⟩ := hinv.multiple
    refine Or.inl ⟨t, ?_, hinv.rows, e, ?_, fun i j => ?_⟩
    · rw [reduce?, hrows, ht]
    · ext i j
      have hij : t.entry i j = (e * a) i (Fin.castLE (by omega) j) :=
        congrFun (congrFun hea i) (Fin.castLE (by omega) j)
      rw [hinv.unitColumns j j.2 i (by rw [hinv.rows]; exact i.2)] at hij
      rw [← hleft, Matrix.one_apply]
      simp only [Fin.ext_iff]
      exact hij.symm
    · have hij : t.entry i (n + j) = (e * a) i ⟨n + j, by omega⟩ :=
        congrFun (congrFun hea i) ⟨n + j, by omega⟩
      -- the right half of `a` is the identity, so `e` itself stands there in the end
      have hcol : ∀ l : Fin n, a l ⟨n + j, by omega⟩ = if j = l then 1 else 0 := by
        intro l
        rw [ha, toMatrix_apply, entry_augment hr l.2 (by simp; omega), if_neg (by simp)]
        simp [Fin.ext_iff]
      rw [hij, Matrix.mul_apply]
      simp [hcol]
  · exact Or.inr ⟨by rw [reduce?, hrows, hnone], hleft ▸ hzero⟩

theorem reduce?_augment (hr : m.rows = n) (hdet : (m.toMatrix n n).det ≠ 0) :
    ∃ t, reduce? (augment m) = some t ∧ t.rows = n ∧
      ∃ e : Matrix (Fin n) (Fin n) ℚ, e * m.toMatrix n n = 1 ∧
        ∀ i j : Fin n, t.entry i (n + j) = e i j :=
  (reduce?_augment_cases hr).resolve_right fun h => hdet h.2

/-- A table without an inverse runs out of pivots. -/
theorem reduce?_augment_eq_none (hr : m.rows = n) (hdet : (m.toMatrix n n).det = 0) :
    reduce? (augment m) = none := by
  rcases reduce?_augment_cases hr with ⟨t, -, -, e, he, -⟩ | ⟨hnone, -⟩
  · have hone : e.det * (m.toMatrix n n).det = 1 := by rw [← det_mul, he, det_one]
    rw [hdet, mul_zero] at hone
    exact absurd hone zero_ne_one
  · exact hnone

end DenseMatrix

end AffineLoops
