import AffineLoops.Derivation.General
import AffineLoops.Proofs.Derivation.Permuted
/-!
# Exactness of the derivation

The derivation takes signed permutations in any dimension and all other transforms in two. Where it
gives a nest, the nest realizes the transform. For the identity it is the reference nest.

## Main definitions

- `Nest.derive_eq` — which derivation is taken
- `Nest.exists_derive`, `Nest.realizes_of_derive` — when there is a nest, and what it is
- `Nest.derive_identity` — the nest of the identity
-/

namespace AffineLoops.Nest

variable {d : Domain} {t : Transform} {nest : Nest}

/-- The identity counts as a signed permutation. -/
theorem derive_eq (hdim : d.dim = t.dim) :
    derive d t = if t.matrix.isSignedPermutation then derivePermuted d t
      else if t.dim = 2 then derivePlanar d t else .error (.derivation (.noClosedForm t)) := by
  rw [derive, if_neg (not_not_intro hdim), Transform.classify]
  by_cases hid : t.matrix = IntMatrix.identity t.dim
  · have hperm : t.matrix.isSignedPermutation := by
      rw [hid, IntMatrix.isSignedPermutation_iff]
      exact IntMatrix.identity_isSignedPermutation t.dim
    rw [if_pos hid, if_pos hperm]
  · rw [if_neg hid]
    by_cases hperm : t.matrix.isSignedPermutation
    · rw [if_pos hperm, if_pos hperm]
    · rw [if_neg hperm, if_neg hperm]
      by_cases hunit : t.isUnimodular
      · rw [if_pos hunit]
      · rw [if_neg hunit]

theorem exists_derive (hd : d.WellFormed) (ht : t.Proper) (hdim : d.dim = t.dim)
    (h : t.dim = 2 ∨ t.matrix.IsSignedPermutation) :
    ∃ nest, derive d t = .ok nest ∧ nest.Realizes d t := by
  rw [derive_eq hdim]
  by_cases hperm : t.matrix.isSignedPermutation
  · rw [if_pos hperm]
    exact exists_derivePermuted hd ht hdim (IntMatrix.isSignedPermutation_iff.mp hperm)
  · have htwo : t.dim = 2 := h.resolve_right fun h => hperm (IntMatrix.isSignedPermutation_iff.mpr h)
    rw [if_neg hperm, if_pos htwo]
    exact exists_derivePlanar hd (hdim.trans htwo) (ht.wellFormed (by omega)) htwo

/-- The derivation fails for vectors of different lengths and for transforms without a closed
form. -/
theorem dim_and_class_of_derive (h : derive d t = .ok nest) :
    d.dim = t.dim ∧ (t.dim = 2 ∨ t.matrix.IsSignedPermutation) := by
  by_cases hdim : d.dim = t.dim
  · rw [derive_eq hdim] at h
    refine ⟨hdim, ?_⟩
    split at h
    · next hperm => exact Or.inr (IntMatrix.isSignedPermutation_iff.mp hperm)
    · split at h
      · next htwo => exact Or.inl htwo
      · cases h
  · rw [derive, if_pos hdim] at h
    cases h

theorem realizes_of_derive (hd : d.WellFormed) (ht : t.Proper) (h : derive d t = .ok nest) :
    nest.Realizes d t := by
  obtain ⟨hdim, hclass⟩ := dim_and_class_of_derive h
  obtain ⟨nest', hnest', hreal⟩ := exists_derive hd ht hdim hclass
  cases hnest'.symm.trans h
  exact hreal

/-- The derivation of the identity gives the reference nest in every dimension, with the same loops, the
same inverse map and no statement. It visits the points of the domain in the order in which these are
enumerated. -/
theorem derive_identity {n : ℕ} (hd : d.WellFormed) (hn : d.dim = n) :
    derive d (.identity n) = .ok (reference d) ∧ (reference d).iterationPoints = .ok d.points := by
  subst hn
  constructor
  · have hperm : (Transform.identity d.dim).matrix.isSignedPermutation :=
      IntMatrix.isSignedPermutation_iff.mpr (IntMatrix.identity_isSignedPermutation d.dim)
    rw [derive_eq rfl, if_pos hperm, derivePermuted_identity hd]
  · rw [iterationPoints_eq_ok (reference_forward d) (reference_defined d) (reference_inverts hd),
      reference_iterations hd]

/-- Three axes, one of them with negative coordinates. -/
theorem derive_identity_box :
    derive ⟨[0, -1, 2], [2, 2, 4]⟩ (.identity 3) = .ok (reference ⟨[0, -1, 2], [2, 2, 4]⟩) ∧
      (reference ⟨[0, -1, 2], [2, 2, 4]⟩).iterationPoints =
        .ok (Domain.points ⟨[0, -1, 2], [2, 2, 4]⟩) :=
  derive_identity (.cons (by decide) (.cons (by decide) (.cons (by decide) .nil))) rfl

end AffineLoops.Nest
