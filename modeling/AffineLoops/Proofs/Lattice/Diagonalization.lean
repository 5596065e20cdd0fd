import AffineLoops.Lattice.Diagonal
import AffineLoops.Proofs.Iteration
import AffineLoops.Proofs.Matrix.Operations
/-!
# Correctness of the diagonal form

Every round is a sequence of row and column operations, so the product relation between the three
matrices and the unimodularity of the outer two never change. A round at position `k` mixes only rows
and columns from `k` on, so what is already cleared stays so. A position is left when its row and its
column hold nothing but the diagonal entry.

## Main definitions

- `DiagonalForm.Represents` — what row and column operations preserve
- `DiagonalForm.ClearedBefore` — the positions that are over
- `DiagonalForm.IsFormOf` — a diagonal form of a matrix of any shape
- `DiagonalForm.ofMatrix?_mono` — more rounds do not change a form that has been found
- `DiagonalForm.ofMatrix?_isFormOf` — the form is one whenever the rounds come to an end
-/

namespace AffineLoops

open Matrix IntMatrix DenseMatrix

/-! ### Pivots -/

/-- At most one of the values from `k` up to `n` is nonzero. -/
def AtMostOne (f : ℕ → ℤ) (k n : ℕ) : Prop :=
  ∀ i j, k ≤ i → i < n → k ≤ j → j < n → f i ≠ 0 → f j ≠ 0 → i = j

/-- Without a pivot there are not two candidates for one. -/
theorem atMostOne_of_pivot {f : ℕ → ℤ} {k n : ℕ}
    (h : (if 2 ≤ ((positions k n).filter (f · ≠ 0)).length then
      leastMagnitude? f (positions k n) else none) = none) : AtMostOne f k n := by
  intro i j hki hi hkj hj hfi hfj
  have hshort : ((positions k n).filter (f · ≠ 0)).length ≤ 1 := by
    by_contra hlong
    rw [if_pos (by omega)] at h
    exact hfi (leastMagnitude?_eq_none h i (mem_positions.mpr ⟨hki, hi⟩))
  have hmem : ∀ l, k ≤ l → l < n → f l ≠ 0 → l ∈ (positions k n).filter (f · ≠ 0) :=
    fun l hkl hl hfl => List.mem_filter.mpr ⟨mem_positions.mpr ⟨hkl, hl⟩, by simpa using hfl⟩
  match hlist : (positions k n).filter (f · ≠ 0), hshort with
  | [], _ => exact absurd (hmem i hki hi hfi) (by rw [hlist]; exact List.not_mem_nil)
  | [a], _ =>
    have hia := hmem i hki hi hfi
    have hja := hmem j hkj hj hfj
    rw [hlist, List.mem_singleton] at hia hja
    exact hia.trans hja.symm

namespace IntMatrix

variable {m : IntMatrix} {k : ℕ}

theorem atMostOne_of_rowPivot? (h : m.rowPivot? k k = none) : AtMostOne (m.entry k ·) k m.cols :=
  atMostOne_of_pivot h

theorem atMostOne_of_colPivot? (h : m.colPivot? k k = none) : AtMostOne (m.entry · k) k m.rows :=
  atMostOne_of_pivot h

theorem rowPivot?_bounds {c : ℕ} (h : m.rowPivot? k k = some c) : k ≤ c ∧ c < m.cols := by
  unfold rowPivot? at h
  dsimp only at h
  split at h
  · exact mem_positions.mp (leastMagnitude?_eq_some h).1
  · cases h

theorem colPivot?_bounds {r : ℕ} (h : m.colPivot? k k = some r) : k ≤ r ∧ r < m.rows := by
  unfold colPivot? at h
  dsimp only at h
  split at h
  · exact mem_positions.mp (leastMagnitude?_eq_some h).1
  · cases h

end IntMatrix

namespace DiagonalForm

variable {h w k : ℕ} {f g : DiagonalForm} {M : Matrix (Fin h) (Fin w) ℤ}

/-! ### The product -/

/-- The second matrix of the triple is `M` between the other two, which are unimodular. -/
structure Represents (f : DiagonalForm) (M : Matrix (Fin h) (Fin w) ℤ) : Prop where
  left_rows : f.left.rows = h
  left_cols : f.left.cols = h
  diagonal_rows : f.diagonal.rows = h
  diagonal_cols : f.diagonal.cols = w
  right_rows : f.right.rows = w
  right_cols : f.right.cols = w
  product : f.diagonal.toMatrix h w = f.left.toMatrix h h * M * f.right.toMatrix w w
  left_unit : IsUnit (f.left.toMatrix h h).det
  right_unit : IsUnit (f.right.toMatrix w w).det

theorem Represents.onRows {op : IntMatrix → IntMatrix} (hf : f.Represents M)
    (hop : IsRowOperation h op) : (f.onRows op).Represents M := by
  obtain ⟨e, he, hmul⟩ := hop
  obtain ⟨hr, hc, hview⟩ := hmul f.left h hf.left_rows hf.left_cols
  obtain ⟨hr', hc', hview'⟩ := hmul f.diagonal w hf.diagonal_rows hf.diagonal_cols
  refine ⟨hr, hc, hr', hc', hf.right_rows, hf.right_cols, ?_, ?_, hf.right_unit⟩
  · change (op f.diagonal).toMatrix h w = (op f.left).toMatrix h h * M * f.right.toMatrix w w
    rw [hview, hview', hf.product, Matrix.mul_assoc, Matrix.mul_assoc, Matrix.mul_assoc]
  · change IsUnit ((op f.left).toMatrix h h).det
    rw [hview, det_mul]
    exact he.mul hf.left_unit

theorem Represents.onCols {op : IntMatrix → IntMatrix} (hf : f.Represents M)
    (hop : IsColumnOperation w op) : (f.onCols op).Represents M := by
  obtain ⟨e, he, hmul⟩ := hop
  obtain ⟨hr, hc, hview⟩ := hmul f.right w hf.right_rows hf.right_cols
  obtain ⟨hr', hc', hview'⟩ := hmul f.diagonal h hf.diagonal_rows hf.diagonal_cols
  refine ⟨hf.left_rows, hf.left_cols, hr', hc', hr, hc, ?_, hf.left_unit, ?_⟩
  · change (op f.diagonal).toMatrix h w = f.left.toMatrix h h * M * (op f.right).toMatrix w w
    rw [hview, hview', hf.product, Matrix.mul_assoc]
  · change IsUnit ((op f.right).toMatrix w w).det
    rw [hview, det_mul]
    exact hf.right_unit.mul he

/-! ### Positions that are over -/

/-- The rows and the columns before position `k` hold nothing off the diagonal. -/
def ClearedBefore (e : ℕ → ℕ → ℤ) (k : ℕ) : Prop :=
  ∀ r < k, ∀ c ≠ r, e r c = 0 ∧ e c r = 0

/-- Columns before `k` stay as they are, and a row without entries from column `k` on gets none. -/
def KeepsBefore (k : ℕ) (e e' : ℕ → ℕ → ℤ) : Prop :=
  (∀ i j, j < k → e' i j = e i j) ∧
    ∀ i, (∀ j, k ≤ j → e i j = 0) → ∀ j, k ≤ j → e' i j = 0

variable {e e' : ℕ → ℕ → ℤ} {c r : ℕ}

/-- Rows and columns are treated alike. -/
theorem ClearedBefore.flip (he : ClearedBefore e k) : ClearedBefore (flip e) k :=
  fun r hr c hc => (he r hr c hc).symm

theorem ClearedBefore.keep (he : ClearedBefore e k) (hkeep : KeepsBefore k e e') :
    ClearedBefore e' k := by
  intro r hr c hc
  refine ⟨?_, ?_⟩
  · by_cases hck : c < k
    · rw [hkeep.1 r c hck, (he r hr c hc).1]
    · exact hkeep.2 r (fun j hj => (he r hr j (by omega)).1) c (by omega)
  · rw [hkeep.1 c r hr, (he r hr c hc).2]

/-- One more position is over. -/
theorem ClearedBefore.succ (he : ClearedBefore e k) (hrow : ∀ j, k < j → e k j = 0)
    (hcol : ∀ i, k < i → e i k = 0) : ClearedBefore e (k + 1) := by
  intro r hr c hc
  by_cases hrk : r = k
  · subst hrk
    by_cases hcr : c < r
    · exact (he c hcr r (by omega)).symm
    · exact ⟨hrow c (by omega), hcol c (by omega)⟩
  · exact he r (by omega) c hc

theorem keepsBefore_of_swap (hc : k ≤ c)
    (h : ∀ i j, e i j = 0 ∧ e' i j = 0 ∨ e' i j = e i (swapIndex k c j)) : KeepsBefore k e e' := by
  refine ⟨fun i j hj => ?_, fun i hi j hj => ?_⟩
  · rcases h i j with ⟨hzero, hzero'⟩ | hswap
    · rw [hzero, hzero']
    · rw [hswap, swapIndex_of_ne (by omega) (by omega)]
  · rcases h i j with ⟨-, hzero'⟩ | hswap
    · exact hzero'
    · have hfrom : k ≤ swapIndex k c j := by
        unfold swapIndex
        split <;> [exact hc; split <;> omega]
      rw [hswap, hi _ hfrom]

theorem keepsBefore_of_subtraction {q : ℕ → ℤ} (hc : k ≤ c) (hq : ∀ j < k, q j = 0)
    (h : ∀ i j, e i j = 0 ∧ e' i j = 0 ∨ e' i j = e i j - q j * e i c) : KeepsBefore k e e' := by
  refine ⟨fun i j hj => ?_, fun i hi j hj => ?_⟩
  · rcases h i j with ⟨hzero, hzero'⟩ | hsub
    · rw [hzero, hzero']
    · rw [hsub, hq j hj, zero_mul, sub_zero]
  · rcases h i j with ⟨-, hzero'⟩ | hsub
    · exact hzero'
    · rw [hsub, hi j hj, hi c hc, mul_zero, sub_zero]

/-- An operation that builds its result entry by entry leaves zero where it leaves the matrix. -/
theorem entry_ofFn_cases (m : IntMatrix) (a : ℕ → ℕ → ℤ) (i j : ℕ) :
    m.entry i j = 0 ∧ (ofFn m.rows m.cols a).entry i j = 0 ∨
      (ofFn m.rows m.cols a).entry i j = a i j := by
  by_cases hin : i < m.rows ∧ j < m.cols
  · exact Or.inr (by rw [entry_ofFn, if_pos hin])
  · exact Or.inl ⟨entry_eq_zero hin, entry_eq_zero (m := ofFn m.rows m.cols a) hin⟩

/-! ### One round -/

/-- What every round at position `k` preserves. -/
structure Invariant (f : DiagonalForm) (M : Matrix (Fin h) (Fin w) ℤ) (k : ℕ) : Prop where
  represents : f.Represents M
  cleared : ClearedBefore f.diagonal.entry k

theorem Invariant.swapCols (hf : f.Invariant M k) (hkc : k ≤ c) (hc : c < f.diagonal.cols) :
    (f.onCols (·.swapCols k c)).Invariant M k := by
  rw [hf.represents.diagonal_cols] at hc
  exact ⟨hf.represents.onCols (isColumnOperation_swapCols ⟨k, by omega⟩ ⟨c, hc⟩),
    hf.cleared.keep (keepsBefore_of_swap hkc (entry_ofFn_cases f.diagonal _))⟩

theorem Invariant.swapRows (hf : f.Invariant M k) (hkr : k ≤ r) (hr : r < f.diagonal.rows) :
    (f.onRows (·.swapRows k r)).Invariant M k := by
  have hflip : ClearedBefore (flip (f.diagonal.swapRows k r).entry) k :=
    hf.cleared.flip.keep (keepsBefore_of_swap hkr fun j i => entry_ofFn_cases f.diagonal _ i j)
  rw [hf.represents.diagonal_rows] at hr
  exact ⟨hf.represents.onRows (isRowOperation_swapRows ⟨k, by omega⟩ ⟨r, hr⟩), hflip.flip⟩

theorem Invariant.reduceRow (hf : f.Invariant M k) (hkc : k ≤ c) (hc : c < f.diagonal.cols) :
    (f.onCols (·.subColMultiples c (rowQuotients f.diagonal k c))).Invariant M k := by
  rw [hf.represents.diagonal_cols] at hc
  refine ⟨hf.represents.onCols (isColumnOperation_subColMultiples ⟨c, hc⟩ (by simp [rowQuotients])),
    hf.cleared.keep (keepsBefore_of_subtraction hkc (fun j hj => ?_) (entry_ofFn_cases f.diagonal _))⟩
  rw [rowQuotients, if_neg (by omega)]

theorem Invariant.reduceColumn (hf : f.Invariant M k) (hkr : k ≤ r) (hr : r < f.diagonal.rows) :
    (f.onRows (·.subRowMultiples r (colQuotients f.diagonal k r))).Invariant M k := by
  have hflip : ClearedBefore
      (flip (f.diagonal.subRowMultiples r (colQuotients f.diagonal k r)).entry) k := by
    refine hf.cleared.flip.keep (keepsBefore_of_subtraction hkr (fun i hi => ?_)
      fun j i => entry_ofFn_cases f.diagonal _ i j)
    rw [colQuotients, if_neg (by omega)]
  rw [hf.represents.diagonal_rows] at hr
  exact ⟨hf.represents.onRows (isRowOperation_subRowMultiples ⟨r, hr⟩ (by simp [colQuotients])),
    hflip.flip⟩

theorem Invariant.bringCol (hf : f.Invariant M k) : (f.bringCol k).Invariant M k := by
  unfold DiagonalForm.bringCol
  split
  · next c hc =>
    have hbounds := mem_positions.mp (List.mem_of_find?_eq_some hc)
    exact hf.swapCols hbounds.1 hbounds.2
  · exact hf

theorem Invariant.bringRow (hf : f.Invariant M k) : (f.bringRow k).Invariant M k := by
  unfold DiagonalForm.bringRow
  split
  · next r hr =>
    have hbounds := mem_positions.mp (List.mem_of_find?_eq_some hr)
    exact hf.swapRows hbounds.1 hbounds.2
  · exact hf

theorem Invariant.turn (hf : f.Invariant M k) : (f.turn k).1.Invariant M k := by
  unfold DiagonalForm.turn
  split
  · next c hc => exact hf.reduceRow (rowPivot?_bounds hc).1 (rowPivot?_bounds hc).2
  · have hbrought := hf.bringCol
    unfold turnColumn
    split
    · next r hr => exact hbrought.reduceColumn (colPivot?_bounds hr).1 (colPivot?_bounds hr).2
    · exact hbrought.bringRow

/-! ### The end of the rounds -/

/-- The only nonzero value from `k` on is brought to `k` by an exchange. -/
theorem eq_zero_of_bring {f : ℕ → ℤ} {k n j : ℕ} {x : ℤ} (hone : AtMostOne f k n) (hkj : k < j)
    (hj : j < n) (hsome : ∀ c, (positions k n).find? (f · ≠ 0) = some c → x = f (swapIndex k c j))
    (hnone : (positions k n).find? (f · ≠ 0) = none → x = f j) : x = 0 := by
  cases hfind : (positions k n).find? (f · ≠ 0) with
  | none =>
    have hzero := List.find?_eq_none.mp hfind j (mem_positions.mpr ⟨by omega, hj⟩)
    rw [hnone hfind]
    simpa using hzero
  | some c =>
    have hbounds := mem_positions.mp (List.mem_of_find?_eq_some hfind)
    have hne : f c ≠ 0 := by simpa using List.find?_some hfind
    rw [hsome c hfind]
    by_contra hother
    -- what stands at `j` now was elsewhere than at `c`
    have hindex : swapIndex k c j ≠ c ∧ k ≤ swapIndex k c j ∧ swapIndex k c j < n := by
      unfold swapIndex
      split <;> [omega; split <;> omega]
    exact hindex.1 (hone _ c hindex.2.1 hindex.2.2 hbounds.1 hbounds.2 hother hne)

theorem row_bringCol (hk : k < f.diagonal.rows) (hone : AtMostOne (f.diagonal.entry k ·) k f.diagonal.cols)
    {j : ℕ} (hkj : k < j) (hj : j < f.diagonal.cols) : (f.bringCol k).diagonal.entry k j = 0 := by
  refine eq_zero_of_bring hone hkj hj (fun c hc => ?_) fun hnone => ?_
  · simp only [bringCol, hc, onCols, entry_swapCols hk hj]
  · simp only [bringCol, hnone]

theorem column_bringRow (hk : k < f.diagonal.cols)
    (hone : AtMostOne (f.diagonal.entry · k) k f.diagonal.rows) {i : ℕ} (hki : k < i)
    (hi : i < f.diagonal.rows) : (f.bringRow k).diagonal.entry i k = 0 := by
  refine eq_zero_of_bring hone hki hi (fun r hr => ?_) fun hnone => ?_
  · simp only [bringRow, hr, onRows, entry_swapRows hi hk]
  · simp only [bringRow, hnone]

/-- The exchange brings the only entry of the column from a row that must then have no other one. -/
theorem row_bringRow (hk : k < f.diagonal.rows) (hk' : k < f.diagonal.cols)
    (hclear : ∀ j, k < j → j < f.diagonal.cols → f.diagonal.entry k j = 0)
    (hone : AtMostOne ((f.bringRow k).diagonal.entry k ·) k f.diagonal.cols) {j : ℕ} (hkj : k < j)
    (hj : j < f.diagonal.cols) : (f.bringRow k).diagonal.entry k j = 0 := by
  cases hfind : (positions k f.diagonal.rows).find? (f.diagonal.entry · k ≠ 0) with
  | none =>
    simp only [bringRow, hfind]
    exact hclear j hkj hj
  | some r =>
    have hbounds := mem_positions.mp (List.mem_of_find?_eq_some hfind)
    have hpivot : (f.bringRow k).diagonal.entry k k ≠ 0 := by
      simp only [bringRow, hfind, onRows]
      rw [entry_swapRows hk hk', swapIndex_left]
      simpa using List.find?_some hfind
    by_contra hother
    have hsame := hone j k (by omega) hj (le_refl k) hk' hother hpivot
    omega

/-- A position that a round settles is cleared. -/
theorem cleared_of_turn (hf : f.Invariant M k) (hk : k < h) (hk' : k < w)
    (hsettled : (f.turn k).2 = true) :
    ClearedBefore (f.turn k).1.diagonal.entry (k + 1) := by
  have hturn := hf.turn
  unfold DiagonalForm.turn at hsettled hturn ⊢
  split at hsettled
  · cases hsettled
  next hrow =>
  have hcols : f.diagonal.cols = w := hf.represents.diagonal_cols
  have hrows : f.diagonal.rows = h := hf.represents.diagonal_rows
  have hbrought := hf.bringCol
  have hclear : ∀ j, k < j → j < w → (f.bringCol k).diagonal.entry k j = 0 := fun j hkj hj =>
    row_bringCol (by omega) (atMostOne_of_rowPivot? hrow) hkj (by omega)
  simp only [hrow] at hturn ⊢
  generalize f.bringCol k = g at hbrought hclear hturn hsettled ⊢
  have hcols' : g.diagonal.cols = w := hbrought.represents.diagonal_cols
  have hrows' : g.diagonal.rows = h := hbrought.represents.diagonal_rows
  unfold turnColumn at hsettled hturn ⊢
  split at hsettled
  · cases hsettled
  next hcol =>
  simp only [hcol] at hturn ⊢
  have hfinal : AtMostOne ((g.bringRow k).diagonal.entry k ·) k w := by
    have hnone := atMostOne_of_rowPivot? (Option.isNone_iff_eq_none.mp hsettled)
    rwa [hturn.represents.diagonal_cols] at hnone
  refine hturn.cleared.succ (fun j hkj => ?_) fun i hki => ?_
  · by_cases hj : j < w
    · subst hcols'
      exact row_bringRow (by omega) hk' hclear hfinal hkj hj
    · exact entry_eq_zero (by rw [hturn.represents.diagonal_cols]; omega)
  · by_cases hi : i < h
    · exact column_bringRow (by omega) (atMostOne_of_colPivot? hcol) hki (by omega)
    · exact entry_eq_zero (by rw [hturn.represents.diagonal_rows]; omega)

/-- What every round preserves holds when the rounds come to an end, and the last round settled the
position. -/
theorem settle?_induction {P Q : DiagonalForm → Prop} (hturn : ∀ f, P f → P (f.turn k).1)
    (hlast : ∀ f, P f → (f.turn k).2 = true → Q (f.turn k).1) {rounds : ℕ} (hf : P f)
    (hg : settle? k rounds f = some g) : Q g := by
  induction rounds generalizing f with
  | zero => cases hg
  | succ rounds ih =>
    have hkept := hturn f hf
    have hsettled := hlast f hf
    rw [settle?] at hg
    split at hg
    · next heq =>
      cases hg
      rw [heq] at hsettled
      exact hsettled rfl
    · next heq =>
      rw [heq] at hkept
      exact ih hkept hg

/-- A settled position stays settled when more rounds are allowed. -/
theorem settle?_mono {rounds rounds' : ℕ} (hle : rounds ≤ rounds')
    (hg : settle? k rounds f = some g) : settle? k rounds' f = some g := by
  induction rounds generalizing f rounds' with
  | zero => cases hg
  | succ rounds ih =>
    obtain ⟨rounds', rfl⟩ : ∃ r, rounds' = r + 1 := ⟨rounds' - 1, by omega⟩
    rw [settle?] at hg ⊢
    split at hg
    · exact hg
    · exact ih (by omega) hg

theorem Invariant.settle (hf : f.Invariant M k) (hk : k < h) (hk' : k < w) {rounds : ℕ}
    (hg : settle? k rounds f = some g) : g.Invariant M (k + 1) :=
  settle?_induction (P := fun f => f.Invariant M k) (Q := fun g => g.Invariant M (k + 1))
    (fun _ hf => hf.turn)
    (fun _ hf hsettled => ⟨hf.turn.represents, cleared_of_turn hf hk hk' hsettled⟩) hf hg

/-! ### The diagonal form -/

/-- A diagonal form of a matrix of any shape. -/
structure IsFormOf (f : DiagonalForm) (m : IntMatrix) : Prop where
  /-- The middle matrix is the product of the other two with the given one in between. -/
  product : (f.left.mul? m).bind (·.mul? f.right) = some f.diagonal
  rows : f.diagonal.rows = m.rows
  cols : f.diagonal.cols = m.cols
  off_diagonal : ∀ i j, i ≠ j → f.diagonal.entry i j = 0
  left_rows : f.left.rows = m.rows
  left_cols : f.left.cols = m.rows
  right_rows : f.right.rows = m.cols
  right_cols : f.right.cols = m.cols
  /-- The outer matrices are invertible over the integers. -/
  left_unimodular : (f.left.toMatrix m.rows m.rows).det = 1 ∨
    (f.left.toMatrix m.rows m.rows).det = -1
  right_unimodular : (f.right.toMatrix m.cols m.cols).det = 1 ∨
    (f.right.toMatrix m.cols m.cols).det = -1

/-- The form in which nothing has been done yet. -/
def start (m : IntMatrix) : DiagonalForm :=
  ⟨identity m.rows, m, identity m.cols⟩

theorem start_invariant (m : IntMatrix) : (start m).Invariant (m.toMatrix m.rows m.cols) 0 := by
  refine ⟨⟨rfl, rfl, rfl, rfl, rfl, rfl, ?_, ?_, ?_⟩, fun r hr => absurd hr (Nat.not_lt_zero r)⟩
  · rw [start, toMatrix_identity, toMatrix_identity, Matrix.one_mul, Matrix.mul_one]
  · rw [start, toMatrix_identity, det_one]
    exact isUnit_one
  · rw [start, toMatrix_identity, det_one]
    exact isUnit_one

/-- What every round preserves holds when the first positions are over. -/
theorem foldlM_settle?_induction {P : DiagonalForm → Prop} {m : IntMatrix} {rounds n : ℕ}
    (hn : n ≤ min m.rows m.cols) (hstart : P (start m))
    (hturn : ∀ k f, k < n → f.Invariant (m.toMatrix m.rows m.cols) k → P f → P (f.turn k).1)
    (hf : (List.range n).foldlM (fun f k => settle? k rounds f) (start m) = some f) :
    f.Invariant (m.toMatrix m.rows m.cols) n ∧ P f := by
  have hstep : ∀ k < n, ∀ x : DiagonalForm, x.Invariant (m.toMatrix m.rows m.cols) k ∧ P x →
      (∃ y, settle? k rounds x = some y ∧ y.Invariant (m.toMatrix m.rows m.cols) (k + 1) ∧ P y) ∨
        settle? k rounds x = none ∧ True := by
    rintro k hk x ⟨hx, hPx⟩
    cases hy : settle? k rounds x with
    | none => exact Or.inr ⟨rfl, True.intro⟩
    | some y =>
      have hboth := settle?_induction (P := fun f => f.Invariant (m.toMatrix m.rows m.cols) k ∧ P f)
        (Q := P) (fun f hf => ⟨hf.1.turn, hturn k f hk hf.1 hf.2⟩)
        (fun f hf _ => hturn k f hk hf.1 hf.2) ⟨hx, hPx⟩ hy
      exact Or.inl ⟨y, rfl, hx.settle (by omega) (by omega) hy, hboth⟩
  rcases foldlM_range_induction n ⟨start_invariant m, hstart⟩ hstep with ⟨g, hg, hinv⟩ | ⟨hnone, -⟩
  · cases hg.symm.trans hf
    exact hinv
  · cases hnone.symm.trans hf

theorem foldlM_settle?_invariant {m : IntMatrix} {rounds n : ℕ} (hn : n ≤ min m.rows m.cols)
    (hf : (List.range n).foldlM (fun f k => settle? k rounds f) (start m) = some f) :
    f.Invariant (m.toMatrix m.rows m.cols) n :=
  (foldlM_settle?_induction (P := fun _ => True) hn True.intro (fun _ _ _ _ _ => True.intro) hf).1

theorem ofMatrix?_invariant {m : IntMatrix} {rounds : ℕ} (hf : ofMatrix? rounds m = some f) :
    f.Invariant (m.toMatrix m.rows m.cols) (min m.rows m.cols) :=
  foldlM_settle?_invariant le_rfl hf

theorem foldlM_settle?_mono {l : List ℕ} {rounds rounds' : ℕ} (hle : rounds ≤ rounds')
    (hg : l.foldlM (fun f k => settle? k rounds f) f = some g) :
    l.foldlM (fun f k => settle? k rounds' f) f = some g := by
  induction l generalizing f with
  | nil => exact hg
  | cons k l ih =>
    rw [List.foldlM_cons, Option.bind_eq_bind, Option.bind_eq_some_iff] at hg ⊢
    obtain ⟨x, hx, hrest⟩ := hg
    exact ⟨x, settle?_mono hle hx, ih hrest⟩

/-- The rounds that are allowed do not show in the form, once there are enough of them. -/
theorem ofMatrix?_mono {m : IntMatrix} {rounds rounds' : ℕ} (hle : rounds ≤ rounds')
    (hf : ofMatrix? rounds m = some f) : ofMatrix? rounds' m = some f :=
  foldlM_settle?_mono hle hf

/-- Whenever the rounds come to an end at every position, the result is a diagonal form of the given
matrix, whatever its shape and rank. -/
theorem ofMatrix?_isFormOf {m : IntMatrix} {rounds : ℕ} (hf : ofMatrix? rounds m = some f) :
    f.IsFormOf m := by
  obtain ⟨hrep, hcleared⟩ := ofMatrix?_invariant hf
  obtain ⟨p, hp, hpr, hpc, hview⟩ := exists_mul? hrep.left_rows hrep.left_cols rfl (rfl : m.cols = _)
  refine ⟨?_, hrep.diagonal_rows, hrep.diagonal_cols, fun i j hij => ?_, hrep.left_rows,
    hrep.left_cols, hrep.right_rows, hrep.right_cols, Int.isUnit_iff.mp hrep.left_unit,
    Int.isUnit_iff.mp hrep.right_unit⟩
  · rw [hp, Option.bind_some, mul?_eq_some hpr hpc hrep.right_rows hrep.right_cols
      hrep.diagonal_rows hrep.diagonal_cols, hview, hrep.product]
  · -- inside the matrix the smaller index is that of a position, outside everything is zero
    by_cases hin : i < m.rows ∧ j < m.cols
    · by_cases hlt : i < min m.rows m.cols
      · exact (hcleared i hlt j (Ne.symm hij)).1
      · exact (hcleared j (by omega) i hij).2
    · exact entry_eq_zero (by rw [hrep.diagonal_rows, hrep.diagonal_cols]; exact hin)

/-- A square matrix, one with more columns than rows, and one of rank 1 with more rows. -/
theorem ofMatrix?_isFormOf_shapes :
    (∃ f, ofMatrix? 20 ⟨3, 3, #v[#v[2, 4, 4], #v[-6, 6, 12], #v[10, -4, -16]]⟩ = some f ∧
      f.IsFormOf ⟨3, 3, #v[#v[2, 4, 4], #v[-6, 6, 12], #v[10, -4, -16]]⟩) ∧
    (∃ f, ofMatrix? 20 ⟨2, 3, #v[#v[1, -1, 2], #v[0, 3, 3]]⟩ = some f ∧
      f.IsFormOf ⟨2, 3, #v[#v[1, -1, 2], #v[0, 3, 3]]⟩) ∧
    ∃ f, ofMatrix? 20 ⟨3, 2, #v[#v[0, 0], #v[2, 4], #v[3, 6]]⟩ = some f ∧
      f.IsFormOf ⟨3, 2, #v[#v[0, 0], #v[2, 4], #v[3, 6]]⟩ := by
  obtain ⟨f, hf⟩ := Option.isSome_iff_exists.mp
    (by decide +kernel : (ofMatrix? 20 ⟨3, 3, #v[#v[2, 4, 4], #v[-6, 6, 12], #v[10, -4, -16]]⟩).isSome)
  obtain ⟨g, hg⟩ := Option.isSome_iff_exists.mp
    (by decide +kernel : (ofMatrix? 20 ⟨2, 3, #v[#v[1, -1, 2], #v[0, 3, 3]]⟩).isSome)
  obtain ⟨k, hk⟩ := Option.isSome_iff_exists.mp
    (by decide +kernel : (ofMatrix? 20 ⟨3, 2, #v[#v[0, 0], #v[2, 4], #v[3, 6]]⟩).isSome)
  exact ⟨⟨f, hf, ofMatrix?_isFormOf hf⟩, ⟨g, hg, ofMatrix?_isFormOf hg⟩,
    ⟨k, hk, ofMatrix?_isFormOf hk⟩⟩

end DiagonalForm

end AffineLoops
