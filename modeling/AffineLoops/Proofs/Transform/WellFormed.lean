import AffineLoops.Proofs.Matrix.Determinant
import AffineLoops.Transform.Basic
import Mathlib.LinearAlgebra.Matrix.Transvection
/-!
# Well-formed transforms

A transform carries its determinant beside its matrix. Every way of making a transform records the
right number, also where it is written down and not computed, and no transform is singular.

## Main definitions

- `Transform.WellFormed` — the matrix is square, and its determinant is the recorded one
- `Transform.Constructed` — the transforms that the constructors of the library return
- `Transform.Constructed.wellFormed` — all of them are well formed
-/

namespace AffineLoops.Transform

open Matrix IntMatrix DenseMatrix

variable {t : Transform} {n : ℕ}

/-- The matrix is square and non-singular, with the recorded determinant. -/
structure WellFormed (t : Transform) : Prop where
  square : t.matrix.cols = t.matrix.rows
  det_eq : t.determinant = (t.matrix.toMatrix t.dim t.dim).det
  det_ne_zero : t.determinant ≠ 0

/-- The results of the constructors. The interchange takes axes that exist. -/
inductive Constructed : Transform → Prop
  | ofMatrix {m : IntMatrix} {t : Transform} (h : ofMatrix m = .ok t) : Constructed t
  | ofRows {rows : List (List ℤ)} {t : Transform} (h : ofRows rows = .ok t) : Constructed t
  | identity (n : ℕ) : Constructed (identity n)
  | interchange {n a b : ℕ} {t : Transform} (ha : a < n) (hb : b < n)
      (h : interchange n a b = .ok t) : Constructed t
  | skew (n target source : ℕ) (factor : ℤ) : Constructed (skew n target source factor)

theorem ofMatrix_wellFormed {m : IntMatrix} (h : ofMatrix m = .ok t) : t.WellFormed := by
  unfold ofMatrix at h
  by_cases hsquare : m.rows = m.cols
  · rw [determinant?_eq_some rfl hsquare.symm] at h
    dsimp only at h
    split at h
    · cases h
    · next hdet =>
      cases h
      exact ⟨hsquare.symm, rfl, hdet⟩
  · rw [determinant?_eq_none hsquare] at h
    cases h

theorem ofRows_wellFormed {rows : List (List ℤ)} (h : ofRows rows = .ok t) : t.WellFormed := by
  unfold ofRows at h
  cases hm : IntMatrix.ofRows rows with
  | error e =>
    rw [hm] at h
    cases h
  | ok m =>
    rw [hm] at h
    exact ofMatrix_wellFormed h

theorem identity_wellFormed (n : ℕ) : (identity n).WellFormed := by
  have hdet : ((IntMatrix.identity n).toMatrix n n).det = 1 := by rw [toMatrix_identity, det_one]
  exact ⟨rfl, hdet.symm, one_ne_zero⟩

theorem interchange_wellFormed {a b : ℕ} (ha : a < n) (hb : b < n)
    (h : interchange n a b = .ok t) : t.WellFormed := by
  have hswap : ((IntMatrix.identity n).swapCols a b).toMatrix n n = swap ℤ ⟨a, ha⟩ ⟨b, hb⟩ := by
    have hview := toMatrix_swapCols (m := IntMatrix.identity n) (n := n) (r := n) rfl rfl ⟨a, ha⟩ ⟨b, hb⟩
    rwa [toMatrix_identity, Matrix.one_mul] at hview
  have ht : t = ⟨(IntMatrix.identity n).swapCols a b, if a = b then 1 else -1⟩ := by
    have hfound : (IntMatrix.identity n).swapCols? a b =
        .ok ((IntMatrix.identity n).swapCols a b) := if_pos (Or.inr (Or.inr ⟨ha, hb⟩))
    rw [interchange, hfound] at h
    cases h
    rfl
  subst ht
  -- the recorded determinant is written down, and an exchange of an axis with itself is none
  refine ⟨rfl, ?_, ?_⟩
  · change _ = (((IntMatrix.identity n).swapCols a b).toMatrix n n).det
    rw [hswap]
    change (if a = b then 1 else -1 : ℤ) = _
    split
    · next hab =>
      subst hab
      simp [swap]
    · next hab => rw [det_swap_of_ne fun heq => hab (Fin.ext_iff.mp heq)]
  · change (if a = b then 1 else -1 : ℤ) ≠ 0
    split <;> decide

/-- An entry off the diagonal adds a multiple of one axis to another, or lies outside. -/
theorem det_set_identity {target source : ℕ} (h : target ≠ source) (factor : ℤ) :
    (((IntMatrix.identity n).set target source factor).toMatrix n n).det = 1 := by
  have hentry : ∀ i j : Fin n, ((IntMatrix.identity n).set target source factor).entry i j =
      if (i : ℕ) = target ∧ (j : ℕ) = source then factor else (1 : Matrix (Fin n) (Fin n) ℤ) i j := by
    intro i j
    rw [IntMatrix.set, entry_ofFn, if_pos ⟨i.2, j.2⟩, ← toMatrix_identity, toMatrix_apply]
  by_cases hin : target < n ∧ source < n
  · have hview : ((IntMatrix.identity n).set target source factor).toMatrix n n =
        transvection ⟨target, hin.1⟩ ⟨source, hin.2⟩ factor := by
      ext i j
      rw [toMatrix_apply, hentry, transvection, Matrix.add_apply, Matrix.single_apply]
      simp only [Fin.ext_iff, eq_comm (a := target), eq_comm (a := source)]
      split
      · next hij => rw [Matrix.one_apply_ne fun heq => h (by omega), zero_add]
      · rw [add_zero]
    rw [hview, det_transvection_of_ne _ _ fun heq => h (Fin.ext_iff.mp heq)]
  · have hview : ((IntMatrix.identity n).set target source factor).toMatrix n n = 1 := by
      ext i j
      rw [toMatrix_apply, hentry, if_neg (by omega)]
    rw [hview, det_one]

theorem skew_wellFormed (n target source : ℕ) (factor : ℤ) :
    (skew n target source factor).WellFormed := by
  by_cases h : target = source
  · have hskew : skew n target source factor = identity n := by
      rw [skew, if_pos h, identity]
    rw [hskew]
    exact identity_wellFormed n
  · have hskew : skew n target source factor =
        ⟨(IntMatrix.identity n).set target source factor, 1⟩ := by
      rw [skew, if_neg h]
    rw [hskew]
    exact ⟨rfl, (det_set_identity h factor).symm, one_ne_zero⟩

/-- No constructor returns a singular transform or a wrong determinant. -/
theorem Constructed.wellFormed (h : t.Constructed) : t.WellFormed := by
  cases h with
  | ofMatrix h => exact ofMatrix_wellFormed h
  | ofRows h => exact ofRows_wellFormed h
  | identity n => exact identity_wellFormed n
  | interchange ha hb h => exact interchange_wellFormed ha hb h
  | skew n target source factor => exact skew_wellFormed n target source factor

theorem WellFormed.determinant_planar (h : t.WellFormed) (hdim : t.dim = 2) :
    t.determinant = t.matrix.entry 0 0 * t.matrix.entry 1 1 -
      t.matrix.entry 0 1 * t.matrix.entry 1 0 := by
  rw [h.det_eq, hdim, det_fin_two]
  rfl

/-- The image of a point with a coordinate per axis. -/
theorem WellFormed.apply_eq (h : t.WellFormed) (hn : t.dim = n) {p : Point} (hp : p.length = n) :
    t.apply p = List.ofFn (t.matrix.toMatrix n n *ᵥ p.toVec n) := by
  rw [Transform.apply, mulVec?_eq_some hn (h.square.trans hn) hp]
  rfl

theorem WellFormed.apply_planar (h : t.WellFormed) (hdim : t.dim = 2) (x y : ℤ) :
    t.apply [x, y] = [t.matrix.entry 0 0 * x + t.matrix.entry 0 1 * y,
      t.matrix.entry 1 0 * x + t.matrix.entry 1 1 * y] := by
  have hentry : ∀ i : Fin 2, (t.matrix.toMatrix 2 2 *ᵥ Point.toVec 2 [x, y]) i =
      t.matrix.entry i 0 * x + t.matrix.entry i 1 * y := by
    intro i
    rw [Matrix.mulVec, dotProduct, Fin.sum_univ_two]
    rfl
  rw [h.apply_eq hdim rfl, funext hentry]
  rfl

end AffineLoops.Transform
