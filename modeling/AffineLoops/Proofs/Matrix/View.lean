import AffineLoops.Matrix.Basic
import Mathlib.Data.Fin.Tuple.Basic
import Mathlib.LinearAlgebra.Matrix.Determinant.Basic
/-!
# Dense matrices and vectors as functions

A dense matrix of known size is a matrix over `Fin`, and a list of known length is a function on
`Fin`. The products of the library are the algebraic ones under these views, so statements about
elimination can be proved with the determinant and the ring of matrices.

## Main definitions

- `DenseMatrix.toMatrix` — the entries as a matrix of a given size
- `Point.toVec` — the coordinates as a function on a given number of axes
- `Point.toVec_shift`, `Point.toVec_sub`, `Point.toVec_neg` — sums and differences under the view
- `IntMatrix.mul?_eq_some`, `IntMatrix.mulVec?_eq_some` — the products under the views
-/

namespace AffineLoops

open Matrix

namespace Point

/-- The first `n` coordinates as a function. -/
def toVec (n : ℕ) (p : Point) : Fin n → ℤ :=
  fun i => p.getD i 0

@[simp] theorem toVec_apply (n : ℕ) (p : Point) (i : Fin n) : p.toVec n i = p.getD i 0 := rfl

theorem toVec_ofFn {n : ℕ} (v : Fin n → ℤ) : toVec n (List.ofFn v) = v := by
  funext i
  simp [toVec, List.getD_eq_getElem?_getD]

/-- A point is determined by its coordinates once its length is known. -/
theorem ofFn_toVec {n : ℕ} {p : Point} (h : p.length = n) : List.ofFn (p.toVec n) = p := by
  subst h
  apply List.ext_getElem
  · simp
  · intro i h₁ h₂
    simp [List.getD_eq_getElem?_getD, h₂]

theorem toVec_inj {n : ℕ} {p q : Point} (hp : p.length = n) (hq : q.length = n) :
    p.toVec n = q.toVec n ↔ p = q :=
  ⟨fun h => by rw [← ofFn_toVec hp, h, ofFn_toVec hq], fun h => by rw [h]⟩

theorem toVec_replicate_zero (n k : ℕ) : toVec n (List.replicate k 0) = 0 := by
  funext i
  by_cases hi : (i : ℕ) < k <;> simp [List.getD_eq_getElem?_getD, hi]

@[simp] theorem length_shift (p q : Point) : (p.shift q).length = min p.length q.length :=
  List.length_zipWith

@[simp] theorem length_sub (p q : Point) : (p.sub q).length = min p.length q.length :=
  List.length_zipWith

theorem toVec_shift {n : ℕ} {p q : Point} (hp : p.length = n) (hq : q.length = n) :
    (p.shift q).toVec n = p.toVec n + q.toVec n := by
  funext i
  have hi : i < p.length := hp ▸ i.2
  have hi' : i < q.length := hq ▸ i.2
  simp [shift, hi, hi', List.getD_eq_getElem?_getD]

theorem toVec_sub {n : ℕ} {p q : Point} (hp : p.length = n) (hq : q.length = n) :
    (p.sub q).toVec n = p.toVec n - q.toVec n := by
  funext i
  have hi : i < p.length := hp ▸ i.2
  have hi' : i < q.length := hq ▸ i.2
  simp [sub, hi, hi', List.getD_eq_getElem?_getD]

theorem toVec_neg (n : ℕ) (p : Point) : p.neg.toVec n = -p.toVec n := by
  funext i
  by_cases hi : i < p.length <;> simp [neg, hi, List.getD_eq_getElem?_getD]

theorem ofFn_add {n : ℕ} (v w : Fin n → ℤ) :
    List.ofFn (v + w) = shift (List.ofFn v) (List.ofFn w) := by
  apply List.ext_getElem
  · simp
  · intro i h₁ h₂
    simp [shift]

/-- The inner product of two points with the same number of axes. -/
theorem dot_eq_dotProduct {n : ℕ} {p q : Point} (hp : p.length = n) (hq : q.length = n) :
    dot p q = p.toVec n ⬝ᵥ q.toVec n := by
  induction n generalizing p q with
  | zero =>
    obtain rfl := List.length_eq_zero_iff.mp hp
    simp [dot, dotProduct]
  | succ n ih =>
    obtain ⟨a, p, rfl⟩ := List.exists_cons_of_length_eq_add_one hp
    obtain ⟨b, q, rfl⟩ := List.exists_cons_of_length_eq_add_one hq
    rw [dot, ih (by simpa using hp) (by simpa using hq), dotProduct, dotProduct, Fin.sum_univ_succ]
    rfl

theorem dot_singleton (a x : ℤ) : dot [a] [x] = a * x := by
  simp [dot]

end Point

namespace DenseMatrix

variable {α : Type} [OfNat α 0]

/-- The entries as a matrix of the given size. -/
def toMatrix (m : DenseMatrix α) (r c : ℕ) : Matrix (Fin r) (Fin c) α :=
  Matrix.of fun i j => m.entry i j

@[simp] theorem toMatrix_apply (m : DenseMatrix α) (r c : ℕ) (i : Fin r) (j : Fin c) :
    m.toMatrix r c i j = m.entry i j := rfl

theorem get?_eq_some_entry {m : DenseMatrix α} {i j : ℕ} (hi : i < m.rows) (hj : j < m.cols) :
    m.get? i j = some (m.entry i j) := by
  simp [entry, get?, hi, hj]

/-- Matrices of one size are equal when their views are. -/
theorem toMatrix_inj {a b : DenseMatrix α} {r c : ℕ} (har : a.rows = r) (hac : a.cols = c)
    (hbr : b.rows = r) (hbc : b.cols = c) (h : a.toMatrix r c = b.toMatrix r c) : a = b := by
  refine ext_get? (har.trans hbr.symm) (hac.trans hbc.symm) fun i j => ?_
  by_cases hi : i < r
  · by_cases hj : j < c
    · have hij : a.entry i j = b.entry i j := congrFun (congrFun h ⟨i, hi⟩) ⟨j, hj⟩
      rw [get?_eq_some_entry (by omega) (by omega), get?_eq_some_entry (by omega) (by omega), hij]
    · simp [get?, show ¬j < a.cols by omega, show ¬j < b.cols by omega]
  · simp [get?, show ¬i < a.rows by omega, show ¬i < b.rows by omega]

/-- A matrix is made of its own entries. -/
theorem ofFn_eq {m : DenseMatrix α} {f : ℕ → ℕ → α}
    (h : ∀ i < m.rows, ∀ j < m.cols, f i j = m.entry i j) : ofFn m.rows m.cols f = m := by
  refine toMatrix_inj rfl rfl rfl rfl ?_
  ext i j
  rw [toMatrix_apply, entry_ofFn, if_pos ⟨i.2, j.2⟩, h i i.2 j j.2, toMatrix_apply]

/-- Every matrix of a given size is a view. -/
theorem exists_toMatrix {r c : ℕ} (v : Matrix (Fin r) (Fin c) α) :
    ∃ m : DenseMatrix α, m.rows = r ∧ m.cols = c ∧ m.toMatrix r c = v := by
  refine ⟨ofFn r c fun i j => if h : i < r ∧ j < c then v ⟨i, h.1⟩ ⟨j, h.2⟩ else 0, rfl, rfl, ?_⟩
  ext i j
  simp [entry_ofFn]

theorem row?_eq_some {m : DenseMatrix α} {i c : ℕ} (hi : i < m.rows) (hc : m.cols = c) :
    m.row? i = some (List.ofFn fun j : Fin c => m.entry i j) := by
  subst hc
  rw [row?, Vector.getElem?_eq_getElem hi, Option.map_some, Option.some_inj]
  apply List.ext_getElem
  · simp
  · intro j h₁ h₂
    have hj : j < m.cols := by simpa using h₂
    simp [entry, get?, hi]

/-- The rows as lists of entries. -/
theorem toRows_eq (m : DenseMatrix α) {r c : ℕ} (hr : m.rows = r) (hc : m.cols = c) :
    m.toRows = List.ofFn fun i : Fin r => List.ofFn fun j : Fin c => m.entry i j := by
  subst hr hc
  apply List.ext_getElem
  · simp [toRows]
  · intro i h₁ h₂
    have hi : i < m.rows := by simpa using h₂
    apply List.ext_getElem
    · simp [toRows]
    · intro j h₃ h₄
      have hj : j < m.cols := by simpa using h₄
      simp [toRows, entry, get?]

end DenseMatrix

namespace IntMatrix

open DenseMatrix

@[simp] theorem rows_identity (n : ℕ) : (identity n).rows = n := rfl

@[simp] theorem cols_identity (n : ℕ) : (identity n).cols = n := rfl

theorem toMatrix_identity (n : ℕ) : (identity n).toMatrix n n = 1 := by
  ext i j
  rw [toMatrix_apply, identity, entry_ofFn, if_pos ⟨i.2, j.2⟩, Matrix.one_apply]
  simp [Fin.ext_iff]

/-- The product of two matrices of fitting sizes. -/
theorem mul?_eq_some {a b c : IntMatrix} {r k n : ℕ} (har : a.rows = r) (hac : a.cols = k)
    (hbr : b.rows = k) (hbc : b.cols = n) (hcr : c.rows = r) (hcc : c.cols = n) :
    a.mul? b = some c ↔ c.toMatrix r n = a.toMatrix r k * b.toMatrix k n := by
  obtain ⟨d, hd⟩ : ∃ d, d = ofFn a.rows b.cols fun i j =>
      ((List.range a.cols).map fun k => a.entry i k * b.entry k j).foldr (· + ·) 0 := ⟨_, rfl⟩
  have hprod : a.mul? b = some d := by rw [mul?, if_pos (hac.trans hbr.symm), hd]
  have hview : d.toMatrix r n = a.toMatrix r k * b.toMatrix k n := by
    ext i j
    rw [toMatrix_apply, hd, entry_ofFn, if_pos ⟨by omega, by omega⟩, Matrix.mul_apply, hac]
    simp only [toMatrix_apply]
    rw [Fin.sum_univ_eq_sum_range (fun l => a.entry i l * b.entry l j)]
    rfl
  rw [hprod, Option.some_inj, ← hview]
  constructor
  · rintro rfl
    rfl
  · intro h
    exact (toMatrix_inj hcr hcc (by simp [hd, har]) (by simp [hd, hbc]) h).symm

theorem exists_mul? {a b : IntMatrix} {r k n : ℕ} (har : a.rows = r) (hac : a.cols = k)
    (hbr : b.rows = k) (hbc : b.cols = n) : ∃ c, a.mul? b = some c ∧ c.rows = r ∧ c.cols = n ∧
      c.toMatrix r n = a.toMatrix r k * b.toMatrix k n := by
  obtain ⟨c, hc⟩ : ∃ c, a.mul? b = some c := ⟨_, if_pos (hac.trans hbr.symm)⟩
  have hsize : c.rows = r ∧ c.cols = n := by
    rw [mul?, if_pos (hac.trans hbr.symm)] at hc
    cases hc
    exact ⟨har, hbc⟩
  exact ⟨c, hc, hsize.1, hsize.2, (mul?_eq_some har hac hbr hbc hsize.1 hsize.2).mp hc⟩

/-- The image of a vector with one entry per column. -/
theorem mulVec?_eq_some {m : IntMatrix} {v : Point} {r c : ℕ} (hr : m.rows = r) (hc : m.cols = c)
    (hv : v.length = c) : m.mulVec? v = some (List.ofFn (m.toMatrix r c *ᵥ v.toVec c)) := by
  rw [mulVec?, if_pos (hc.trans hv.symm), toRows_eq m hr hc, List.map_ofFn]
  congr 1
  congr 1
  funext i
  rw [Function.comp_apply, Point.dot_eq_dotProduct (List.length_ofFn) hv, Point.toVec_ofFn,
    Matrix.mulVec]
  rfl

end IntMatrix

end AffineLoops
