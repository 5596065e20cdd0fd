import AffineLoops.Proofs.Lattice.Diagonalization
import Mathlib.LinearAlgebra.Matrix.Nondegenerate
import Mathlib.LinearAlgebra.Matrix.NonsingularInverse
/-!
# Integer linear systems

A system is solved through a diagonal form of its matrix. The outer matrices of the form are
invertible over the integers, so the system and the diagonal one have solutions together, and the
diagonal one is solved row by row: a row without a solution is a proof that there is none.

## Main definitions

- `DiagonalForm.solveDiagonal?_eq_some`, `DiagonalForm.solveDiagonal?_eq_none` — diagonal systems
- `DiagonalForm.Represents.mulVec_eq_iff` — the system and the diagonal one
- `solve_zero` — the solution that is found for a homogeneous system
- `solve_decides` — what the outcome says about the system
-/

namespace AffineLoops

open Matrix DenseMatrix IntMatrix

/-! ### One equation -/

theorem solveCoordinate?_eq_some {d c y : ℤ} (h : solveCoordinate? d c = some y) : d * y = c := by
  unfold solveCoordinate? at h
  split at h
  · next hd =>
    split at h
    · next hc => rw [hd, hc, zero_mul]
    · cases h
  · split at h
    · next hrem =>
      cases h
      exact Int.mul_tdiv_cancel' (Int.dvd_of_tmod_eq_zero hrem)
    · cases h

theorem solveCoordinate?_eq_none {d c : ℤ} (h : solveCoordinate? d c = none) (y : ℤ) : d * y ≠ c := by
  rintro rfl
  unfold solveCoordinate? at h
  split at h
  · next hd =>
    rw [hd, zero_mul, if_pos rfl] at h
    cases h
  · rw [if_pos (Int.mul_tmod_right d y)] at h
    cases h

/-! ### Diagonal systems -/

theorem mapM_zipIdx_eq_some {g : ℤ × ℕ → Option ℤ} {c ys : List ℤ} {start : ℕ}
    (h : (c.zipIdx start).mapM g = some ys) :
    ys.length = c.length ∧ ∀ i < c.length, g (c.getD i 0, start + i) = some (ys.getD i 0) := by
  induction c generalizing start ys with
  | nil =>
    cases h
    exact ⟨rfl, fun i hi => absurd hi (Nat.not_lt_zero i)⟩
  | cons a c ih =>
    rw [List.zipIdx_cons, List.mapM_cons, Option.bind_eq_bind, Option.bind_eq_some_iff] at h
    obtain ⟨y, hy, h⟩ := h
    rw [Option.bind_eq_bind, Option.bind_eq_some_iff] at h
    obtain ⟨rest, hrest, h⟩ := h
    cases h
    obtain ⟨hlen, hall⟩ := ih hrest
    refine ⟨by rw [List.length_cons, List.length_cons, hlen], fun i hi => ?_⟩
    cases i with
    | zero => exact hy
    | succ i =>
      rw [List.length_cons] at hi
      have hi := hall i (by omega)
      rwa [show start + (i + 1) = start + 1 + i by omega]

theorem mapM_zipIdx_eq_none {g : ℤ × ℕ → Option ℤ} {c : List ℤ} {start : ℕ}
    (h : (c.zipIdx start).mapM g = none) : ∃ i < c.length, g (c.getD i 0, start + i) = none := by
  induction c generalizing start with
  | nil => cases h
  | cons a c ih =>
    cases hhead : g (a, start) with
    | none => exact ⟨0, Nat.zero_lt_succ _, hhead⟩
    | some y =>
      have hrest : (c.zipIdx (start + 1)).mapM g = none := by
        cases htail : (c.zipIdx (start + 1)).mapM g with
        | none => rfl
        | some ys =>
          rw [List.zipIdx_cons, List.mapM_cons, hhead, htail] at h
          cases h
      obtain ⟨i, hi, hnone⟩ := ih hrest
      refine ⟨i + 1, by rw [List.length_cons]; omega, ?_⟩
      rwa [show start + (i + 1) = start + 1 + i by omega]

theorem mapM_zipIdx_replicate {g : ℤ × ℕ → Option ℤ} {x y : ℤ} (h : ∀ i, g (x, i) = some y)
    (n start : ℕ) : ((List.replicate n x).zipIdx start).mapM g = some (List.replicate n y) := by
  induction n generalizing start with
  | zero => rfl
  | succ n ih =>
    rw [List.replicate_succ, List.zipIdx_cons, List.mapM_cons, h, ih]
    rfl

namespace DiagonalForm

variable {h w : ℕ} {f : DiagonalForm} {M : Matrix (Fin h) (Fin w) ℤ} {m : IntMatrix}

/-- A row of a diagonal matrix sees one coordinate, or none if it is beyond the last column. -/
theorem mulVec_diagonal (hcols : m.cols = w) (hoff : ∀ i j, i ≠ j → m.entry i j = 0) (y : Point)
    (i : Fin h) : (m.toMatrix h w *ᵥ y.toVec w) i = m.entry i i * y.getD i 0 := by
  rw [Matrix.mulVec, dotProduct]
  by_cases hi : (i : ℕ) < w
  · rw [Finset.sum_eq_single ⟨i, hi⟩]
    · rfl
    · intro j _ hj
      have hij : (i : ℕ) ≠ j := fun heq => hj (Fin.ext heq.symm)
      rw [toMatrix_apply, hoff i j hij, zero_mul]
    · exact fun hmem => absurd (Finset.mem_univ _) hmem
  · have hdiag : m.entry i i = 0 := entry_eq_zero (by omega)
    rw [hdiag, zero_mul]
    refine Finset.sum_eq_zero fun j _ => ?_
    rw [toMatrix_apply, hoff i j (by omega), zero_mul]

theorem solveDiagonal?_eq_some (hcols : f.diagonal.cols = w)
    (hoff : ∀ i j, i ≠ j → f.diagonal.entry i j = 0) {c y : Point} (hc : c.length = h)
    (hy : f.solveDiagonal? c = some y) :
    y.length = w ∧ f.diagonal.toMatrix h w *ᵥ y.toVec w = c.toVec h := by
  rw [solveDiagonal?, Option.bind_eq_bind, Option.bind_eq_some_iff] at hy
  obtain ⟨ys, hys, hy⟩ := hy
  cases hy
  obtain ⟨-, hall⟩ := mapM_zipIdx_eq_some hys
  refine ⟨by rw [List.length_map, List.length_range, hcols], ?_⟩
  funext i
  have hi := solveCoordinate?_eq_some (hall i (hc ▸ i.2))
  rw [mulVec_diagonal hcols hoff, Point.toVec_apply, ← hi, Nat.zero_add]
  by_cases hiw : (i : ℕ) < w
  · have hcoord : ((List.range f.diagonal.cols).map fun j => (ys[j]?).getD 0).getD i 0 =
        ys.getD i 0 := by
      simp [List.getD_eq_getElem?_getD, hcols, hiw]
    rw [hcoord]
  · rw [entry_eq_zero (by omega), zero_mul, zero_mul]

theorem solveDiagonal?_eq_none (hcols : f.diagonal.cols = w)
    (hoff : ∀ i j, i ≠ j → f.diagonal.entry i j = 0) {c : Point} (hc : c.length = h)
    (hnone : f.solveDiagonal? c = none) (y : Fin w → ℤ) :
    f.diagonal.toMatrix h w *ᵥ y ≠ c.toVec h := by
  rw [solveDiagonal?, Option.bind_eq_bind, Option.bind_eq_none_iff] at hnone
  have hrow := Option.eq_none_iff_forall_ne_some.mpr fun ys hys =>
    absurd (hnone ys hys) (Option.some_ne_none _)
  obtain ⟨i, hi, hfail⟩ := mapM_zipIdx_eq_none hrow
  intro heq
  have hrow := congrFun heq ⟨i, hc ▸ hi⟩
  rw [← Point.toVec_ofFn y, mulVec_diagonal hcols hoff, Point.toVec_apply] at hrow
  rw [Nat.zero_add] at hfail
  exact solveCoordinate?_eq_none hfail _ hrow

theorem solveDiagonal?_zero (f : DiagonalForm) (n : ℕ) :
    f.solveDiagonal? (List.replicate n 0) = some (List.replicate f.diagonal.cols 0) := by
  have hcoord : ∀ d : ℤ, solveCoordinate? d 0 = some 0 := fun d => by simp [solveCoordinate?]
  rw [solveDiagonal?, mapM_zipIdx_replicate fun i => hcoord (f.diagonal.entry i i)]
  change some ((List.range f.diagonal.cols).map fun j => ((List.replicate n (0 : ℤ))[j]?).getD 0) = _
  rw [Option.some_inj, List.eq_replicate_iff]
  refine ⟨by simp, fun x hx => ?_⟩
  obtain ⟨j, -, rfl⟩ := List.mem_map.mp hx
  by_cases hj : j < n <;> simp [hj]

/-! ### Any system -/

/-- A vector solves the system when what it comes from under the last matrix solves the diagonal
one. -/
theorem Represents.mulVec_eq_iff (hf : f.Represents M) (y : Fin w → ℤ) (b : Fin h → ℤ) :
    f.diagonal.toMatrix h w *ᵥ y = f.left.toMatrix h h *ᵥ b ↔
      M *ᵥ (f.right.toMatrix w w *ᵥ y) = b := by
  have hinj := mulVec_injective_of_det_ne_zero hf.left_unit.ne_zero
  rw [hf.product, ← Matrix.mulVec_mulVec, ← Matrix.mulVec_mulVec]
  exact ⟨fun heq => hinj heq, fun heq => congrArg _ heq⟩

theorem Represents.exists_mulVec (hf : f.Represents M) (x : Fin w → ℤ) :
    ∃ y, f.right.toMatrix w w *ᵥ y = x :=
  ⟨(f.right.toMatrix w w)⁻¹ *ᵥ x, by
    rw [Matrix.mulVec_mulVec, mul_nonsing_inv _ hf.right_unit, Matrix.one_mulVec]⟩

end DiagonalForm

variable {a : IntMatrix} {f : DiagonalForm} {rounds : ℕ}

/-- The solutions of a system as vectors. -/
theorem mulVec?_eq_some_iff {h w : ℕ} (hr : a.rows = h) (hc : a.cols = w) {b x : Point}
    (hb : b.length = h) : a.mulVec? x = some b ↔
      x.length = w ∧ a.toMatrix h w *ᵥ x.toVec w = b.toVec h := by
  by_cases hx : x.length = w
  · rw [mulVec?_eq_some hr hc hx, Option.some_inj]
    constructor
    · rintro rfl
      exact ⟨hx, by rw [Point.toVec_ofFn]⟩
    · rintro ⟨-, heq⟩
      rw [heq, Point.ofFn_toVec hb]
  · have hne : ¬a.cols = x.length := by omega
    rw [mulVec?, if_neg hne]
    exact iff_of_false (Option.some_ne_none b).symm fun hsol => hx hsol.1

/-- What is done with a diagonal form of the matrix. -/
theorem solve_eq {b : Point} (hf : DiagonalForm.ofMatrix? rounds a = some f)
    (hb : b.length = a.rows) :
    ∃ c : Point, c.length = a.rows ∧
      c.toVec a.rows = f.left.toMatrix a.rows a.rows *ᵥ b.toVec a.rows ∧
      solve rounds a b = .ok (match (f.solveDiagonal? c).bind f.right.mulVec? with
        | some x => .found x
        | none => .unsolvable) := by
  obtain ⟨hrep, -⟩ := DiagonalForm.ofMatrix?_invariant hf
  have hc := mulVec?_eq_some hrep.left_rows hrep.left_cols hb
  refine ⟨_, List.length_ofFn, Point.toVec_ofFn _, ?_⟩
  rw [solve, if_neg (by omega), hf]
  dsimp only
  rw [hc]
  rfl

/-- Of the solutions of a homogeneous system the origin is the one that is found. -/
theorem solve_zero (hf : DiagonalForm.ofMatrix? rounds a = some f) :
    solve rounds a (List.replicate a.rows 0) = .ok (.found (List.replicate a.cols 0)) := by
  obtain ⟨hrep, -⟩ := DiagonalForm.ofMatrix?_invariant hf
  obtain ⟨c, hc, hcvec, hsolve⟩ := solve_eq hf (b := List.replicate a.rows 0) List.length_replicate
  rw [Point.toVec_replicate_zero, Matrix.mulVec_zero] at hcvec
  have hzero : c = List.replicate a.rows 0 := by
    rw [← Point.ofFn_toVec hc, hcvec]
    exact List.ofFn_const a.rows 0
  have hright := mulVec?_eq_some (v := List.replicate a.cols 0) hrep.right_rows hrep.right_cols
    List.length_replicate
  rw [Point.toVec_replicate_zero, Matrix.mulVec_zero] at hright
  rw [hsolve, hzero, DiagonalForm.solveDiagonal?_zero, Option.bind_some, hrep.diagonal_cols, hright]
  exact congrArg (fun x => Except.ok (Solution.found x)) (List.ofFn_const a.cols 0)

/-- On a matrix that has a diagonal form, every system is decided. A right-hand side of the wrong
length is refused. Otherwise a vector that is found solves the system, and none is found exactly if
no integer vector does. -/
theorem solve_decides (hf : DiagonalForm.ofMatrix? rounds a = some f) (b : Point) :
    (b.length ≠ a.rows → solve rounds a b = .error (.dimensionMismatch a.rows b.length)) ∧
      (b.length = a.rows →
        (∃ s, solve rounds a b = .ok s ∧ s ≠ .unfinished) ∧
          (∀ x, solve rounds a b = .ok (.found x) → x.length = a.cols ∧ a.mulVec? x = some b) ∧
            (solve rounds a b = .ok .unsolvable ↔ ¬∃ x : Point, a.mulVec? x = some b)) := by
  refine ⟨fun hne => by rw [solve, if_pos (by omega)], fun hb => ?_⟩
  obtain ⟨hrep, -⟩ := DiagonalForm.ofMatrix?_invariant hf
  have hoff := (DiagonalForm.ofMatrix?_isFormOf hf).off_diagonal
  obtain ⟨c, hc, hcvec, hsolve⟩ := solve_eq hf hb
  have hsystem : ∀ x : Point, a.mulVec? x = some b ↔ x.length = a.cols ∧
      a.toMatrix a.rows a.cols *ᵥ x.toVec a.cols = b.toVec a.rows :=
    fun x => mulVec?_eq_some_iff rfl rfl hb
  rw [hsolve]
  cases hy : f.solveDiagonal? c with
  | none =>
    have hunsolvable : ¬∃ x : Point, a.mulVec? x = some b := by
      rintro ⟨x, hx⟩
      obtain ⟨y, hy'⟩ := hrep.exists_mulVec (x.toVec a.cols)
      refine DiagonalForm.solveDiagonal?_eq_none hrep.diagonal_cols hoff hc hy y ?_
      rw [hcvec, hrep.mulVec_eq_iff, hy']
      exact ((hsystem x).mp hx).2
    exact ⟨⟨_, rfl, nofun⟩, nofun, fun _ => hunsolvable, fun _ => rfl⟩
  | some y =>
    obtain ⟨hylen, hyvec⟩ := DiagonalForm.solveDiagonal?_eq_some hrep.diagonal_cols hoff hc hy
    have himage := mulVec?_eq_some hrep.right_rows hrep.right_cols hylen
    rw [hcvec, hrep.mulVec_eq_iff] at hyvec
    have hfound : a.mulVec? (List.ofFn (f.right.toMatrix a.cols a.cols *ᵥ y.toVec a.cols)) =
        some b := (hsystem _).mpr ⟨List.length_ofFn, by rw [Point.toVec_ofFn, hyvec]⟩
    simp only [Option.bind_some, himage]
    refine ⟨⟨_, rfl, nofun⟩, fun x hx => ?_, nofun, fun hnone => absurd ⟨_, hfound⟩ hnone⟩
    cases hx
    exact ⟨List.length_ofFn, hfound⟩

/-- A system with one solution, one whose rows contradict each other, one with more unknowns than
equations and no integer solution, and one with a right-hand side that does not fit. -/
theorem solve_decides_shapes :
    (∃ x, solve 20 ⟨2, 2, #v[#v[3, 2], #v[3, 4]]⟩ [12, 18] = .ok (.found x) ∧
      IntMatrix.mulVec? ⟨2, 2, #v[#v[3, 2], #v[3, 4]]⟩ x = some [12, 18]) ∧
    (¬∃ x, IntMatrix.mulVec? ⟨2, 1, #v[#v[1], #v[1]]⟩ x = some [1, 2]) ∧
    (¬∃ x, IntMatrix.mulVec? ⟨1, 2, #v[#v[2, 4]]⟩ x = some [5]) ∧
    solve 20 ⟨1, 2, #v[#v[2, 4]]⟩ [] = .error (.dimensionMismatch 1 0) := by
  obtain ⟨f, hf⟩ := Option.isSome_iff_exists.mp (by decide +kernel :
    (DiagonalForm.ofMatrix? 20 ⟨2, 2, #v[#v[3, 2], #v[3, 4]]⟩).isSome)
  obtain ⟨g, hg⟩ := Option.isSome_iff_exists.mp (by decide +kernel :
    (DiagonalForm.ofMatrix? 20 ⟨2, 1, #v[#v[1], #v[1]]⟩).isSome)
  obtain ⟨k, hk⟩ := Option.isSome_iff_exists.mp (by decide +kernel :
    (DiagonalForm.ofMatrix? 20 ⟨1, 2, #v[#v[2, 4]]⟩).isSome)
  have hfound : solve 20 ⟨2, 2, #v[#v[3, 2], #v[3, 4]]⟩ [12, 18] = .ok (.found [2, 3]) := by
    decide +kernel
  refine ⟨⟨_, hfound, (((solve_decides hf [12, 18]).2 rfl).2.1 _ hfound).2⟩,
    ((solve_decides hg [1, 2]).2 rfl).2.2.mp (by decide +kernel),
    ((solve_decides hk [5]).2 rfl).2.2.mp (by decide +kernel), (solve_decides hk []).1 (by decide)⟩

end AffineLoops
