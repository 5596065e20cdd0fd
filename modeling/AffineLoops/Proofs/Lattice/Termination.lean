import AffineLoops.Proofs.Lattice.Progress
import Mathlib.LinearAlgebra.Matrix.NonsingularInverse
/-!
# The end of the diagonalization

The rounds at a position come to an end exactly if only finitely many of them drag a cleared row back.
There are matrices of two rows and two columns on which every round does. On a matrix with a single
row or column, on one with at most one entry per row, and on one with a right inverse no round ever
does, so these are diagonalized.

## Main definitions

- `DiagonalForm.turns` — the forms that the rounds at a position go through
- `DiagonalForm.exists_settle?_iff` — when a position is settled
- `DiagonalForm.Ends`, `DiagonalForm.Reaches` — matrices that are diagonalized, and forms on the way
- `DiagonalForm.ends_iff` — when a matrix is diagonalized
- `DiagonalForm.ends_of_le_one`, `DiagonalForm.ends_of_singleRows`,
  `DiagonalForm.ends_of_rightInverse` — matrices that are
- `DiagonalForm.not_ends_of_multiple` — matrices that are not
-/

namespace AffineLoops.DiagonalForm

open Matrix IntMatrix DenseMatrix

variable {h w k n : ℕ} {f g g' : DiagonalForm} {M : Matrix (Fin h) (Fin w) ℤ} {m : IntMatrix}

/-! ### One position -/

/-- The form after so many rounds at position `k`, whether they have settled it or not. -/
def turns (k : ℕ) : ℕ → DiagonalForm → DiagonalForm
  | 0, f => f
  | n + 1, f => turns k n (f.turn k).1

/-- From some round on nothing is dragged back any more. -/
def FinitelyDrags (f : DiagonalForm) (k : ℕ) : Prop :=
  ∃ N, ∀ n, N ≤ n → ¬(turns k n f).Drags k

theorem Invariant.turns (hf : f.Invariant M k) (n : ℕ) : (turns k n f).Invariant M k := by
  induction n generalizing f with
  | zero => exact hf
  | succ n ih => exact ih hf.turn

theorem exists_settle?_of_turn (h : ∃ rounds g, settle? k rounds (f.turn k).1 = some g) :
    ∃ rounds g, settle? k rounds f = some g := by
  obtain ⟨rounds, g, hg⟩ := h
  cases hflag : (f.turn k).2 with
  | true => exact ⟨1, (f.turn k).1, by rw [settle?, ← Prod.eta (f.turn k), hflag]⟩
  | false =>
    refine ⟨rounds + 1, g, ?_⟩
    rw [settle?, ← Prod.eta (f.turn k), hflag]
    exact hg

/-- The rank cannot decrease for ever. -/
theorem exists_settle?_of_never (hf : f.Invariant M k) (hk : k < h) (hk' : k < w)
    (hdrags : ∀ n, ¬(turns k n f).Drags k) : ∃ rounds g, settle? k rounds f = some g := by
  induction hrank : f.rank k using WellFoundedLT.induction generalizing f with
  | ind v ih =>
    cases hflag : (f.turn k).2 with
    | true => exact ⟨1, (f.turn k).1, by rw [settle?, ← Prod.eta (f.turn k), hflag]⟩
    | false =>
      have hlt := rank_turn_lt (by rw [hf.represents.diagonal_rows]; exact hk)
        (by rw [hf.represents.diagonal_cols]; exact hk') hflag (hdrags 0)
      exact exists_settle?_of_turn (ih _ (hrank ▸ hlt) hf.turn (fun n => hdrags (n + 1)) rfl)

theorem exists_settle?_of_finitelyDrags (hf : f.Invariant M k) (hk : k < h) (hk' : k < w)
    (hdrags : f.FinitelyDrags k) : ∃ rounds g, settle? k rounds f = some g := by
  obtain ⟨N, hN⟩ := hdrags
  induction N generalizing f with
  | zero => exact exists_settle?_of_never hf hk hk' fun n => hN n (Nat.zero_le n)
  | succ N ih => exact exists_settle?_of_turn (ih hf.turn fun n hn => hN (n + 1) (by omega))

theorem exists_turns_of_settle? {rounds : ℕ} (hg : settle? k rounds f = some g) :
    ∃ n, turns k n f = g := by
  induction rounds generalizing f with
  | zero => cases hg
  | succ rounds ih =>
    rw [settle?] at hg
    split at hg
    · next heq =>
      cases hg
      exact ⟨1, congrArg Prod.fst heq⟩
    · next heq =>
      obtain ⟨n, hn⟩ := ih hg
      exact ⟨n + 1, by rw [turns, heq, hn]⟩

theorem turns_add (N n : ℕ) (f : DiagonalForm) : turns k (N + n) f = turns k n (turns k N f) := by
  induction N generalizing f with
  | zero => rw [Nat.zero_add, turns]
  | succ N ih => rw [Nat.succ_add, turns, ih, turns]

/-- A position that is cleared stays as it is. -/
theorem turn_of_cleared (hk : k < f.diagonal.rows) (hk' : k < f.diagonal.cols)
    (hrow : ∀ j, k < j → f.diagonal.entry k j = 0) (hcol : ∀ i, k < i → f.diagonal.entry i k = 0) :
    f.turn k = (f, true) ∧ ¬f.Drags k := by
  have hbring : f.bringCol k = f := bringCol_of_row hk' hrow
  have hpivot : f.diagonal.rowPivot? k k = none := rowPivot?_eq_none_iff.mpr (atMostOne_of_row hrow)
  have hpivot' : f.diagonal.colPivot? k k = none := colPivot?_eq_none_iff.mpr (atMostOne_of_row hcol)
  refine ⟨?_, ?_⟩
  · simp only [turn, hpivot, hbring, turnColumn, hpivot', bringRow_of_column hk hcol,
      Option.isNone_none]
  · rintro ⟨-, r, hr, -⟩
    rw [hbring, hpivot'] at hr
    cases hr

/-- A position is settled exactly if only finitely many rounds drag something back there. -/
theorem exists_settle?_iff (hf : f.Invariant M k) (hk : k < h) (hk' : k < w) :
    (∃ rounds g, settle? k rounds f = some g) ↔ f.FinitelyDrags k := by
  refine ⟨?_, exists_settle?_of_finitelyDrags hf hk hk'⟩
  rintro ⟨rounds, g, hg⟩
  obtain ⟨N, hN⟩ := exists_turns_of_settle? hg
  have hinv := hf.settle hk hk' hg
  obtain ⟨hturn, hnodrag⟩ := turn_of_cleared (k := k)
    (by rw [hinv.represents.diagonal_rows]; exact hk) (by rw [hinv.represents.diagonal_cols]; exact hk')
    (fun j hkj => (hinv.cleared k (Nat.lt_succ_self k) j hkj.ne').1)
    (fun i hki => (hinv.cleared k (Nat.lt_succ_self k) i hki.ne').2)
  have hstay : ∀ n, turns k n g = g := by
    intro n
    induction n with
    | zero => rfl
    | succ n ih => rw [turns, hturn, ih]
  refine ⟨N, fun n hn => ?_⟩
  obtain ⟨m, rfl⟩ : ∃ m, n = N + m := ⟨n - N, by omega⟩
  rw [turns_add, hN, hstay]
  exact hnodrag

/-! ### All positions -/

/-- The matrix is diagonalized within some number of rounds. -/
def Ends (m : IntMatrix) : Prop :=
  ∃ rounds f, ofMatrix? rounds m = some f

/-- The positions before `k` are settled within some number of rounds, with this form. -/
def Reaches (m : IntMatrix) (k : ℕ) (f : DiagonalForm) : Prop :=
  ∃ rounds, (List.range k).foldlM (fun f k => settle? k rounds f) (start m) = some f

theorem Reaches.unique (hf : Reaches m k f) (hg : Reaches m k g) : f = g := by
  obtain ⟨rounds, hf⟩ := hf
  obtain ⟨rounds', hg⟩ := hg
  have hf := foldlM_settle?_mono (le_max_left rounds rounds') hf
  have hg := foldlM_settle?_mono (le_max_right rounds rounds') hg
  exact Option.some_inj.mp (hf.symm.trans hg)

theorem Reaches.invariant (hf : Reaches m k f) (hk : k ≤ min m.rows m.cols) :
    f.Invariant (m.toMatrix m.rows m.cols) k := by
  obtain ⟨rounds, hf⟩ := hf
  exact foldlM_settle?_invariant hk hf

theorem Reaches.succ (hf : Reaches m k f) {rounds : ℕ} (hg : settle? k rounds f = some g) :
    Reaches m (k + 1) g := by
  obtain ⟨rounds', hf⟩ := hf
  refine ⟨max rounds rounds', ?_⟩
  rw [List.range_succ, List.foldlM_append, foldlM_settle?_mono (le_max_right rounds rounds') hf]
  simp [settle?_mono (le_max_left rounds rounds') hg]

theorem Reaches.pred (hg : Reaches m (k + 1) g) :
    ∃ f, Reaches m k f ∧ ∃ rounds, settle? k rounds f = some g := by
  obtain ⟨rounds, hg⟩ := hg
  rw [List.range_succ, List.foldlM_append, Option.bind_eq_bind, Option.bind_eq_some_iff] at hg
  obtain ⟨f, hf, hlast⟩ := hg
  exact ⟨f, ⟨rounds, hf⟩, rounds, by simpa using hlast⟩

theorem ends_iff_exists_reaches : Ends m ↔ ∃ f, Reaches m (min m.rows m.cols) f := exists_comm

/-- A matrix is diagonalized exactly if at every position that is reached only finitely many rounds
drag something back. -/
theorem ends_iff : Ends m ↔ ∀ k < min m.rows m.cols, ∀ f, Reaches m k f → f.FinitelyDrags k := by
  have hsettled : ∀ k < min m.rows m.cols, ∀ f, Reaches m k f →
      ((∃ rounds g, settle? k rounds f = some g) ↔ f.FinitelyDrags k) := fun k hk f hf =>
    exists_settle?_iff (hf.invariant hk.le) (by omega) (by omega)
  rw [ends_iff_exists_reaches]
  constructor
  · rintro ⟨last, hlast⟩ k hk f hf
    -- the way to the last position leads through this one
    have hback : ∀ n f', Reaches m (k + 1 + n) f' → ∃ g, Reaches m (k + 1) g := by
      intro n
      induction n with
      | zero => exact fun f' hf' => ⟨f', hf'⟩
      | succ n ih =>
        intro f' hf'
        obtain ⟨f'', hf'', -⟩ := hf'.pred
        exact ih f'' hf''
    obtain ⟨g, hg⟩ := hback (min m.rows m.cols - (k + 1)) last
      (by rwa [Nat.add_sub_cancel' (by omega : k + 1 ≤ min m.rows m.cols)])
    obtain ⟨f', hf', rounds, hsettle⟩ := hg.pred
    rw [← hf'.unique hf, ← hsettled k hk f' hf']
    exact ⟨rounds, g, hsettle⟩
  · intro hdrags
    have hall : ∀ n ≤ min m.rows m.cols, ∃ f, Reaches m n f := by
      intro n
      induction n with
      | zero => exact fun _ => ⟨start m, 0, rfl⟩
      | succ n ih =>
        intro hn
        obtain ⟨f, hf⟩ := ih (by omega)
        obtain ⟨rounds, g, hg⟩ := (hsettled n hn f hf).mpr (hdrags n hn f hf)
        exact ⟨g, hf.succ hg⟩
    exact hall _ le_rfl

/-! ### Matrices that are diagonalized -/

/-- It is enough that no round drags anything back, as long as what the rounds preserve holds. -/
theorem ends_of_never {P : DiagonalForm → Prop} (hstart : P (start m))
    (hturn : ∀ k f, f.Invariant (m.toMatrix m.rows m.cols) k → P f → P (f.turn k).1)
    (hdrags : ∀ k f, k < min m.rows m.cols → f.Invariant (m.toMatrix m.rows m.cols) k → P f →
      ¬f.Drags k) : Ends m := by
  refine ends_iff.mpr fun k hk f ⟨rounds, hf⟩ => ⟨0, fun n _ => ?_⟩
  obtain ⟨hinv, hP⟩ := foldlM_settle?_induction hk.le hstart (fun k f _ => hturn k f) hf
  have hkept : ∀ n, ∀ f : DiagonalForm, f.Invariant (m.toMatrix m.rows m.cols) k → P f →
      P (turns k n f) := by
    intro n
    induction n with
    | zero => exact fun f _ hP => hP
    | succ n ih => exact fun f hinv hP => ih _ hinv.turn (hturn k f hinv hP)
  exact hdrags k _ hk (hinv.turns n) (hkept n f hinv hP)

/-- There must be a later row to drag back, and a later column to drag from. -/
theorem Drags.lt (hd : f.Drags k) : k + 1 < f.diagonal.rows ∧ k + 1 < f.diagonal.cols := by
  obtain ⟨-, r, hr, hrk, -, -, j, hkj, hj⟩ := hd
  obtain ⟨hle, hlt⟩ := colPivot?_bounds hr
  have hin : r < (f.bringCol k).diagonal.rows ∧ j < (f.bringCol k).diagonal.cols :=
    by_contra fun hout => hj (entry_eq_zero hout)
  rw [rows_bringCol, cols_bringCol] at hin
  omega

theorem ends_of_le_one (hm : m.rows ≤ 1 ∨ m.cols ≤ 1) : Ends m := by
  refine ends_of_never (P := fun _ => True) True.intro (fun _ _ _ _ => True.intro) ?_
  intro k f _ hinv _ hd
  have hlt := hd.lt
  rw [hinv.represents.diagonal_rows, hinv.represents.diagonal_cols] at hlt
  omega

/-- No row has two nonzero entries. -/
def SingleRows (m : IntMatrix) : Prop :=
  ∀ i j j', m.entry i j ≠ 0 → m.entry i j' ≠ 0 → j = j'

theorem singleRows_iff : SingleRows m ↔ ∀ i < m.rows, ∀ j < m.cols, ∀ j' < m.cols,
    m.entry i j ≠ 0 → m.entry i j' ≠ 0 → j = j' := by
  refine ⟨fun hm i _ j _ j' _ => hm i j j', fun hm i j j' hj hj' => ?_⟩
  have hin : ∀ j, m.entry i j ≠ 0 → i < m.rows ∧ j < m.cols := fun j hne =>
    by_contra fun hout => hne (entry_eq_zero hout)
  exact hm i (hin j hj).1 j (hin j hj).2 j' (hin j' hj').2 hj hj'

instance : Decidable (SingleRows m) :=
  decidable_of_iff _ singleRows_iff.symm

theorem swapIndex_injective (a b : ℕ) : Function.Injective (swapIndex a b) := by
  have hinv : Function.Involutive (swapIndex a b) := by
    intro j
    unfold swapIndex
    split_ifs <;> omega
  exact hinv.injective

theorem SingleRows.swapCols (hm : SingleRows m) (a b : ℕ) : SingleRows (m.swapCols a b) := by
  have hfrom : ∀ i j, (m.swapCols a b).entry i j ≠ 0 → m.entry i (swapIndex a b j) ≠ 0 := by
    intro i j hne
    rcases entry_ofFn_cases m (fun i j => m.entry i (swapIndex a b j)) i j with ⟨-, hzero⟩ | heq
    · exact absurd hzero hne
    · exact heq ▸ hne
  exact fun i j j' hj hj' => swapIndex_injective a b (hm i _ _ (hfrom i j hj) (hfrom i j' hj'))

theorem SingleRows.swapRows (hm : SingleRows m) (a b : ℕ) : SingleRows (m.swapRows a b) := by
  have hfrom : ∀ i j, (m.swapRows a b).entry i j ≠ 0 → m.entry (swapIndex a b i) j ≠ 0 := by
    intro i j hne
    rcases entry_ofFn_cases m (fun i j => m.entry (swapIndex a b i) j) i j with ⟨-, hzero⟩ | heq
    · exact absurd hzero hne
    · exact heq ▸ hne
  exact fun i j j' hj hj' => hm _ j j' (hfrom i j hj) (hfrom i j' hj')

/-- Multiples of a row that has its entry in column `k` are taken from rows that have it there too. -/
theorem SingleRows.reduceColumn {r : ℕ} (hm : SingleRows m) (hr : m.entry r k ≠ 0) :
    SingleRows (m.subRowMultiples r (colQuotients m k r)) := by
  have hsub : ∀ i j, (m.subRowMultiples r (colQuotients m k r)).entry i j ≠ 0 →
      m.entry i j - colQuotients m k r i * m.entry r j ≠ 0 := by
    intro i j hne
    rcases entry_ofFn_cases m (fun i j => m.entry i j - colQuotients m k r i * m.entry r j) i j with
      ⟨-, hzero⟩ | heq
    · exact absurd hzero hne
    · exact heq ▸ hne
  intro i j j' hj hj'
  by_cases hq : colQuotients m k r i = 0
  · have hsame : ∀ j, (m.subRowMultiples r (colQuotients m k r)).entry i j ≠ 0 → m.entry i j ≠ 0 := by
      intro j hj
      simpa [hq] using hsub i j hj
    exact hm i j j' (hsame j hj) (hsame j' hj')
  · have hik : m.entry i k ≠ 0 := fun hzero => hq (by simp [colQuotients, hzero, Rounding.quotient])
    have hcol : ∀ j, (m.subRowMultiples r (colQuotients m k r)).entry i j ≠ 0 → j = k := by
      intro j hj
      by_contra hjk
      have hi : m.entry i j = 0 := by_contra fun hne => hjk (hm i j k hne hik)
      have hr' : m.entry r j = 0 := by_contra fun hne => hjk (hm r j k hne hr)
      exact hsub i j hj (by rw [hi, hr', mul_zero, sub_zero])
    rw [hcol j hj, hcol j' hj']

theorem SingleRows.bringCol (hf : SingleRows f.diagonal) : SingleRows (f.bringCol k).diagonal := by
  unfold DiagonalForm.bringCol
  split
  · exact hf.swapCols _ _
  · exact hf

theorem SingleRows.bringRow (hf : SingleRows f.diagonal) : SingleRows (f.bringRow k).diagonal := by
  unfold DiagonalForm.bringRow
  split
  · exact hf.swapRows _ _
  · exact hf

theorem SingleRows.turn (hf : SingleRows f.diagonal) : SingleRows (f.turn k).1.diagonal := by
  rcases turn_cases f k with ⟨c, hc, -⟩ | ⟨-, r, hr, hturn⟩ | ⟨-, -, hturn⟩
  · obtain ⟨j, -, -, hjc, hj⟩ := hc.other
    exact absurd (hf k j c hj hc.ne_zero) hjc
  · rw [hturn]
    exact hf.bringCol.reduceColumn (isPivot_of_eq_some hr).ne_zero
  · rw [hturn]
    exact hf.bringCol.bringRow

theorem ends_of_singleRows (hm : SingleRows m) : Ends m := by
  refine ends_of_never (P := fun f => SingleRows f.diagonal) hm (fun k f _ hf => hf.turn) ?_
  rintro k f - - hf ⟨-, r, hr, -, -, -, j, hkj, hj⟩
  exact hkj.ne' (hf.bringCol r j k hj (isPivot_of_eq_some hr).ne_zero)

/-- The only entry of a row is a unit, if the matrix has a right inverse. -/
theorem Represents.natAbs_eq_one (hf : f.Represents M) {b : Matrix (Fin w) (Fin h) ℤ} (hb : M * b = 1)
    (hk : k < h) (hk' : k < w) (hrow : ∀ j ≠ k, f.diagonal.entry k j = 0) :
    (f.diagonal.entry k k).natAbs = 1 := by
  obtain ⟨x, hx⟩ : ∃ x, x = (f.right.toMatrix w w)⁻¹ * b * (f.left.toMatrix h h)⁻¹ := ⟨_, rfl⟩
  have hinverse : f.diagonal.toMatrix h w * x = 1 := by
    rw [hf.product, hx]
    calc f.left.toMatrix h h * M * f.right.toMatrix w w *
          ((f.right.toMatrix w w)⁻¹ * b * (f.left.toMatrix h h)⁻¹)
        = f.left.toMatrix h h * (M * (f.right.toMatrix w w * (f.right.toMatrix w w)⁻¹) * b) *
            (f.left.toMatrix h h)⁻¹ := by simp only [Matrix.mul_assoc]
      _ = 1 := by
        rw [mul_nonsing_inv _ hf.right_unit, Matrix.mul_one, hb, Matrix.mul_one,
          mul_nonsing_inv _ hf.left_unit]
  have hentry := congrFun (congrFun hinverse ⟨k, hk⟩) ⟨k, hk⟩
  rw [Matrix.mul_apply, Finset.sum_eq_single ⟨k, hk'⟩, Matrix.one_apply_eq] at hentry
  · exact Int.natAbs_of_isUnit (IsUnit.of_mul_eq_one _ hentry)
  · intro j _ hj
    rw [toMatrix_apply, hrow j fun heq => hj (Fin.ext heq), zero_mul]
  · exact fun hmem => absurd (Finset.mem_univ _) hmem

theorem ends_of_rightInverse {b : Matrix (Fin m.cols) (Fin m.rows) ℤ}
    (hb : m.toMatrix m.rows m.cols * b = 1) : Ends m := by
  refine ends_of_never (P := fun _ => True) True.intro (fun _ _ _ _ => True.intro) ?_
  rintro k f hk hinv - ⟨hone, r, hr, hrk, hne, -⟩
  have hpivot := isPivot_of_eq_some hr
  have hrows := hinv.represents.diagonal_rows
  have hcols := hinv.represents.diagonal_cols
  have hbrought := brought_bringCol (by omega) (by omega) hone
  have hunit := hinv.bringCol.represents.natAbs_eq_one hb (k := k) (by omega) (by omega)
    fun j hj => by
    rcases hj.lt_or_gt with hlt | hgt
    · exact (hinv.bringCol.cleared j hlt k hj.symm).2
    · exact hbrought.row j hgt
  -- a pivot below the unit would be smaller
  have hsmall := hpivot.first hrk hne
  have hpos := Int.natAbs_pos.mpr hpivot.ne_zero
  omega

/-! ### Matrices that are not -/

/-- Two rows and two columns, in which the first row has a single entry. Once it is brought to the
diagonal, it is a proper multiple of the entry below, and the second row is full. -/
structure Swings (f : DiagonalForm) : Prop where
  rows : f.diagonal.rows = 2
  cols : f.diagonal.cols = 2
  single : AtMostOne (f.diagonal.entry 0 ·) 0 2
  multiple : ∃ q : ℤ, 1 < q.natAbs ∧
    (f.bringCol 0).diagonal.entry 0 0 = q * (f.bringCol 0).diagonal.entry 1 0
  pivot : (f.bringCol 0).diagonal.entry 1 0 ≠ 0
  other : (f.bringCol 0).diagonal.entry 1 1 ≠ 0

/-- Clearing the column replaces the first entry by a multiple of the last one, beside it. -/
theorem swings_of_multiple {q : ℤ} (hs : ColumnStep g g' 0 1) (hrows : g.diagonal.rows = 2)
    (hcols : g.diagonal.cols = 2) (hq : 1 < q.natAbs)
    (hmul : g.diagonal.entry 0 0 = q * g.diagonal.entry 1 0) (hother : g.diagonal.entry 1 1 ≠ 0) :
    g'.Swings := by
  have hrows' : g'.diagonal.rows = 2 := hs.rows.trans hrows
  have hcols' : g'.diagonal.cols = 2 := hs.cols.trans hcols
  have hquotient : colQuotients g.diagonal 0 1 0 = q := by
    rw [colQuotients, if_pos ⟨le_rfl, Nat.zero_ne_one⟩, hmul, Rounding.quotient]
    exact Int.mul_fdiv_cancel q hs.pivot.ne_zero
  have h00 : g'.diagonal.entry 0 0 = 0 := by
    rw [hs.diagonal, hquotient, hmul, sub_self]
  have h01 : g'.diagonal.entry 0 1 = -q * g.diagonal.entry 1 1 := by
    rw [hs.row 1 Nat.one_pos, hquotient, neg_mul]
  have hne : g'.diagonal.entry 0 1 ≠ 0 := by
    rw [h01]
    exact mul_ne_zero (by omega) hother
  have hfind : (positions 0 g'.diagonal.cols).find? (g'.diagonal.entry 0 · ≠ 0) = some 1 := by
    rw [hcols', show positions 0 2 = [0, 1] from rfl, List.find?_cons_of_neg (by simpa using h00),
      List.find?_cons_of_pos (by simpa using hne)]
  have hbring : ∀ i j, i < 2 → j < 2 → (g'.bringCol 0).diagonal.entry i j =
      g'.diagonal.entry i (swapIndex 0 1 j) := by
    intro i j hi hj
    simp only [bringCol, hfind, onCols]
    exact entry_swapCols (by rw [hrows']; exact hi) (by rw [hcols']; exact hj)
  refine ⟨hrows', hcols', ?_, ⟨-q, by simpa using hq, ?_⟩, ?_, ?_⟩
  · intro i j _ hi _ hj hi0 hj0
    have hzero : ∀ l < 2, g'.diagonal.entry 0 l ≠ 0 → l = 1 := fun l hl hl0 =>
      by_contra fun hl1 => hl0 ((by omega : l = 0) ▸ h00)
    rw [hzero i hi hi0, hzero j hj hj0]
  · rw [hbring 0 0 (by omega) (by omega), hbring 1 0 (by omega) (by omega)]
    change g'.diagonal.entry 0 1 = -q * g'.diagonal.entry 1 1
    rw [h01, hs.kept 1 (by omega)]
  · rw [hbring 1 0 (by omega) (by omega)]
    change g'.diagonal.entry 1 1 ≠ 0
    rw [hs.kept 1 (by omega)]
    exact hother
  · rw [hbring 1 1 (by omega) (by omega)]
    change g'.diagonal.entry 1 0 ≠ 0
    rw [hs.kept 0 (by omega)]
    exact hs.pivot.ne_zero

/-- The round clears the column with the second row, and finds the same again after it. -/
theorem Swings.turn (hf : f.Swings) : (f.turn 0).2 = false ∧ (f.turn 0).1.Swings := by
  obtain ⟨q, hq, hmul⟩ := hf.multiple
  have hrows : 0 < f.diagonal.rows := by rw [hf.rows]; omega
  have hcols : 0 < f.diagonal.cols := by rw [hf.cols]; omega
  have hb := brought_bringCol hrows hcols (by rw [hf.cols]; exact hf.single)
  have hpivot := hf.pivot
  have hother := hf.other
  have hturn := turn_cases f 0
  generalize f.bringCol 0 = g at hmul hb hpivot hother hturn
  have hgr : g.diagonal.rows = 2 := hb.rows.trans hf.rows
  have hgc : g.diagonal.cols = 2 := hb.cols.trans hf.cols
  have hlt : (g.diagonal.entry 1 0).natAbs < (g.diagonal.entry 0 0).natAbs := by
    rw [hmul, Int.natAbs_mul]
    exact lt_mul_of_one_lt_left (Int.natAbs_pos.mpr hpivot) hq
  have hne : g.diagonal.entry 0 0 ≠ 0 := fun h0 => by simp [h0] at hlt
  rcases hturn with ⟨c, hc, -⟩ | ⟨-, r, hr, hturn⟩ | ⟨-, hone, -⟩
  · obtain ⟨j, -, hj, hjc, hj0⟩ := hc.other
    rw [hf.cols] at hj
    exact absurd (hf.single j c (Nat.zero_le j) hj hc.le (hf.cols ▸ hc.lt) hj0 hc.ne_zero) hjc
  · have hleast := isPivot_of_eq_some hr
    have hr1 : r = 1 := by
      have hr2 := hgr ▸ hleast.lt
      by_contra hne1
      obtain rfl : r = 0 := by omega
      have hle := hleast.least 1 (Nat.zero_le 1) (by rw [hgr]; omega) hpivot
      omega
    subst hr1
    rw [hturn]
    have hs := columnStep_subRowMultiples (by omega) (by omega) hb.row hr
    exact ⟨rfl, swings_of_multiple hs hgr hgc hq hmul hother⟩
  · have hsame := hone 0 1 le_rfl (by rw [hgr]; omega) (Nat.zero_le 1) (by rw [hgr]; omega) hne hpivot
    omega

theorem settle?_of_swings (hf : f.Swings) (rounds : ℕ) : settle? 0 rounds f = none := by
  induction rounds generalizing f with
  | zero => rfl
  | succ rounds ih =>
    obtain ⟨hopen, hnext⟩ := hf.turn
    rw [settle?, ← Prod.eta (f.turn 0), hopen]
    exact ih hnext

/-- A matrix whose first row has a single entry, which is a proper multiple of the one below it, is
never diagonalized if the second row is full. -/
theorem not_ends_of_multiple {q a b : ℤ} (hq : 1 < q.natAbs) (ha : a ≠ 0) (hb : b ≠ 0) :
    ¬Ends ⟨2, 2, #v[#v[q * a, 0], #v[a, b]]⟩ := by
  obtain ⟨f, hf⟩ : ∃ f, f = start ⟨2, 2, #v[#v[q * a, 0], #v[a, b]]⟩ := ⟨_, rfl⟩
  have hrows : f.diagonal.rows = 2 := by rw [hf]; rfl
  have hcols : f.diagonal.cols = 2 := by rw [hf]; rfl
  have hne : f.diagonal.entry 0 0 ≠ 0 := by
    rw [hf]
    exact mul_ne_zero (by omega) ha
  have hrow : ∀ j, 0 < j → f.diagonal.entry 0 j = 0 := by
    intro j hj
    by_cases hj1 : j = 1
    · rw [hf, hj1]
      rfl
    · exact entry_eq_zero (by omega)
  have hbring : f.bringCol 0 = f := bringCol_of_ne_zero (by omega) hne
  have hswings : f.Swings := by
    refine ⟨hrows, hcols, atMostOne_of_row hrow, ⟨q, hq, ?_⟩, ?_, ?_⟩
    · rw [hbring, hf]
      rfl
    · rw [hbring, hf]
      exact ha
    · rw [hbring, hf]
      exact hb
  rintro ⟨rounds, g, hg⟩
  have hnone : ([0, 1].foldlM (fun f k => settle? k rounds f) f) = some g := by
    rw [hf]
    exact hg
  rw [List.foldlM_cons, settle?_of_swings hswings] at hnone
  cases hnone

end AffineLoops.DiagonalForm
