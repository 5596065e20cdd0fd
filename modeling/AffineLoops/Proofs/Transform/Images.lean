import AffineLoops.Proofs.Lattice.Diagonal
import AffineLoops.Proofs.Point
import AffineLoops.Proofs.Transform.Inverse
/-!
# Images of iterations and offsets

A transform is linear, and its inverse map takes every image back. So the image of a moved
iteration is the moved image, and whether it comes before the image of the iteration itself depends
on the sign of the image of the offset alone.

## Main definitions

- `Transform.Proper` — well formed, as far as there are axes
- `Transform.Constructible`, `Transform.Constructible.proper` — what the constructors return, for
  axes that exist or not
- `Transform.Proper.apply_shift`, `Transform.Proper.apply_shift_lt_iff` — moved iterations
-/

namespace AffineLoops

open Matrix IntMatrix DenseMatrix

namespace Transform

variable {t : Transform} {p q o : Point}

/-- The matrix is square, and the transform is well formed if it has an axis. Without axes nothing
is ever divided by the recorded determinant. -/
structure Proper (t : Transform) : Prop where
  square : t.matrix.cols = t.matrix.rows
  wellFormed : t.dim ≠ 0 → t.WellFormed

theorem WellFormed.proper (h : t.WellFormed) : t.Proper :=
  ⟨h.square, fun _ => h⟩

/-- The results of the constructors, for all arguments that they accept. -/
inductive Constructible : Transform → Prop
  | constructed {t : Transform} (h : t.Constructed) : Constructible t
  | interchange {n a b : ℕ} {t : Transform} (h : interchange n a b = .ok t) : Constructible t

/-- An exchange is only defined for axes that exist, unless it exchanges nothing. -/
theorem interchange_proper {n a b : ℕ} (h : interchange n a b = .ok t) : t.Proper := by
  by_cases hin : a < n ∧ b < n
  · exact (interchange_wellFormed hin.1 hin.2 h).proper
  · unfold interchange swapCols? at h
    split at h
    · next hcond =>
      cases h
      refine ⟨rfl, fun hdim => ?_⟩
      have hn : n ≠ 0 := hdim
      have hab : a = b := by
        rcases hcond with hab | hrows | hlt
        · exact hab
        · exact absurd hrows hn
        · exact absurd hlt hin
      subst hab
      rw [swapCols_self]
      simpa [identity] using identity_wellFormed n
    · cases h

theorem Constructible.proper (h : t.Constructible) : t.Proper := by
  cases h with
  | constructed h => exact h.wellFormed.proper
  | interchange h => exact interchange_proper h

namespace Proper

theorem apply_eq (h : t.Proper) (hp : p.length = t.dim) :
    t.apply p = List.ofFn (t.matrix.toMatrix t.dim t.dim *ᵥ p.toVec t.dim) := by
  rw [Transform.apply, mulVec?_eq_some rfl h.square hp]
  rfl

@[simp] theorem length_apply (h : t.Proper) (hp : p.length = t.dim) :
    (t.apply p).length = t.dim := by
  rw [h.apply_eq hp, List.length_ofFn]

theorem inverse_apply (h : t.Proper) (hp : p.length = t.dim) :
    t.inverse.apply (t.apply p) = .ok p := by
  by_cases hdim : t.dim = 0
  · -- no coordinate is divided
    have hdet : (t.matrix.toMatrix t.dim t.dim).det ≠ 0 := by
      rw [hdim, det_isEmpty]
      exact one_ne_zero
    obtain ⟨b, hb, hr, hc, -⟩ := adjugate?_eq_some rfl h.square hdet
    have hnil : p = [] := List.length_eq_zero_iff.mp (hp.trans hdim)
    have himage : t.apply p = [] := List.length_eq_zero_iff.mp ((h.length_apply hp).trans hdim)
    rw [himage, hnil, InverseMap.apply, Transform.inverse, hb, Option.getD_some,
      mulVec?_eq_some (hr.trans hdim) (hc.trans hdim) rfl, List.ofFn_zero]
    rfl
  · exact ((h.wellFormed hdim).apply_inverse_eq_ok (h.length_apply hp)).mpr ⟨hp, rfl⟩

theorem apply_shift (h : t.Proper) (hp : p.length = t.dim) (ho : o.length = t.dim) :
    t.apply (p.shift o) = (t.apply p).shift (t.apply o) := by
  have hlen : (p.shift o).length = t.dim := by simp [hp, ho]
  rw [h.apply_eq hlen, h.apply_eq hp, h.apply_eq ho, Point.toVec_shift hp ho, mulVec_add,
    Point.ofFn_add]

/-- Moving an iteration by an offset moves its image backwards exactly if the image of the offset is
negative. -/
theorem apply_shift_lt_iff (h : t.Proper) (hp : p.length = t.dim) (ho : o.length = t.dim) :
    t.apply (p.shift o) < t.apply p ↔ (t.apply o).lexSign < 0 := by
  have hlen : (t.apply o).length = (t.apply p).length := by
    rw [h.length_apply ho, h.length_apply hp]
  rw [h.apply_shift hp ho]
  refine ⟨fun hlt => ?_, Point.shift_lt hlen⟩
  by_contra hsign
  rcases (not_lt.mp hsign).eq_or_lt with hzero | hpos
  · rw [Point.shift_eq_self hlen hzero.symm] at hlt
    exact lt_irrefl _ hlt
  · exact lt_asymm hlt (Point.lt_shift hlen hpos)

end Proper

end Transform

end AffineLoops
