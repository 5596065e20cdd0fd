import AffineLoops.Proofs.Domain
import AffineLoops.Proofs.Nest.Walk
import AffineLoops.Proofs.Transform.Images
/-!
# Nests that enumerate a domain

A nest whose tuples are the images of the points of a domain visits each of these points once, in
the lexicographic order of the images, since the inverse map takes every tuple back to its point.

## Main definitions

- `Nest.Enumerates` — a nest goes through the image of a domain, and through the domain
- `Nest.Realizes` — a nest for a domain and a transform, with the images as its tuples
- `Nest.enumerates_of_proper`, `Nest.Realizes.enumerates` — it is enough to know the set of the tuples
- `Nest.Enumerates.lt_iff` — the order of the points
- `Nest.Enumerates.unique` — only one list of points can be gone through
-/

namespace AffineLoops.Nest

variable {nest : Nest} {d : Domain} {t : Transform}

/-- The walk goes through the points `ps` of the domain `d`, all of them, in the lexicographic order
of their images under `t`. -/
structure Enumerates (nest : Nest) (d : Domain) (t : Transform) (ps : List Point) : Prop where
  transformedPoints : nest.transformedPoints = .ok (ps.map t.apply)
  iterationPoints : nest.iterationPoints = .ok ps
  mem : ∀ p, p ∈ ps ↔ d.contains p
  sorted : (ps.map t.apply).Pairwise (· < ·)

theorem Enumerates.nodup {ps : List Point} (h : nest.Enumerates d t ps) : ps.Nodup := by
  have hsorted := List.pairwise_map.mp h.sorted
  refine List.Pairwise.imp ?_ hsorted
  rintro p q hlt rfl
  exact lt_irrefl _ hlt

/-- Of two points the one with the earlier image comes first. -/
theorem Enumerates.lt_iff {ps : List Point} {p q : Point} {i j : ℕ} (h : nest.Enumerates d t ps)
    (hi : ps[i]? = some p) (hj : ps[j]? = some q) : i < j ↔ t.apply p < t.apply q := by
  have hbefore : ∀ {i j : ℕ} {p q : Point}, ps[i]? = some p → ps[j]? = some q → i < j →
      t.apply p < t.apply q := by
    intro i j p q hi hj hij
    obtain ⟨hin, rfl⟩ := List.getElem?_eq_some_iff.mp hi
    obtain ⟨hjn, rfl⟩ := List.getElem?_eq_some_iff.mp hj
    exact List.pairwise_iff_getElem.mp (List.pairwise_map.mp h.sorted) i j hin hjn hij
  refine ⟨hbefore hi hj, fun hlt => ?_⟩
  rcases lt_trichotomy i j with hij | rfl | hji
  · exact hij
  · cases hi.symm.trans hj
    exact absurd hlt (lt_irrefl _)
  · exact absurd hlt (lt_asymm (hbefore hj hi hji))

theorem apply_inverse_apply (ht : t.Proper) (hdim : d.dim = t.dim)
    (hinv : nest.inverse = t.inverse) {p : Point} (hp : d.contains p) :
    nest.inverse.apply (t.apply p) = .ok p := by
  rw [hinv, ht.inverse_apply ((Domain.length_of_contains hp).trans hdim)]

/-- Every tuple that is an image stands for an iteration. -/
theorem inverts_of_mem_tuples (ht : t.Proper) (hdim : d.dim = t.dim)
    (hinv : nest.inverse = t.inverse)
    (himage : ∀ q, q ∈ nest.tuples ↔ ∃ p, d.contains p ∧ t.apply p = q) : nest.Inverts := by
  intro q hq
  obtain ⟨p, hp, rfl⟩ := (himage q).mp hq
  exact ⟨p, apply_inverse_apply ht hdim hinv hp⟩

/-- A nest over the right set of tuples enumerates its domain. -/
theorem enumerates_of_proper (ht : t.Proper) (hdim : d.dim = t.dim)
    (hinv : nest.inverse = t.inverse) (hpos : nest.Forward) (hdef : nest.Defined)
    (himage : ∀ q, q ∈ nest.tuples ↔ ∃ p, d.contains p ∧ t.apply p = q) :
    nest.Enumerates d t nest.iterations := by
  have hback : ∀ p, d.contains p → nest.iterationOf (t.apply p) = p := fun p hp =>
    iterationOf_eq (apply_inverse_apply ht hdim hinv hp)
  have hmap : nest.iterations.map t.apply = nest.tuples := by
    rw [iterations, List.map_map]
    refine (List.map_congr_left fun q hq => ?_).trans (List.map_id nest.tuples)
    obtain ⟨p, hp, rfl⟩ := (himage q).mp hq
    rw [Function.comp_apply, hback p hp, id_eq]
  refine ⟨?_, iterationPoints_eq_ok hpos hdef (inverts_of_mem_tuples ht hdim hinv himage),
    fun p => ?_, ?_⟩
  · rw [hmap]
    exact transformedPoints_eq_ok hpos hdef
  · constructor
    · intro hmem
      obtain ⟨q, hq, rfl⟩ := List.mem_map.mp hmem
      obtain ⟨p, hp, rfl⟩ := (himage q).mp hq
      rwa [hback p hp]
    · intro hp
      exact List.mem_map.mpr ⟨t.apply p, (himage _).mpr ⟨p, hp, rfl⟩, hback p hp⟩
  · rw [hmap]
    exact pairwise_tuples hpos

/-- The points with an earlier image have all been visited before. -/
theorem Enumerates.mem_before {before after : List Point} {p q : Point}
    (h : nest.Enumerates d t (before ++ p :: after)) (hq : d.contains q)
    (hlt : t.apply q < t.apply p) : q ∈ before := by
  obtain ⟨j, hj⟩ := List.mem_iff_getElem?.mp ((h.mem q).mpr hq)
  have hp : (before ++ p :: after)[before.length]? = some p := by simp
  have hbefore : j < before.length := (h.lt_iff hj hp).mpr hlt
  rw [List.getElem?_append_left hbefore] at hj
  exact List.mem_of_getElem? hj

/-- The domain and the transform determine the order in which the points are visited. -/
theorem Enumerates.unique {nest' : Nest} {ps ps' : List Point} (h : nest.Enumerates d t ps)
    (h' : nest'.Enumerates d t ps') : ps = ps' := by
  have hsorted := List.pairwise_map.mp h.sorted
  have hsorted' := List.pairwise_map.mp h'.sorted
  refine List.Perm.eq_of_pairwise (fun p q _ _ hpq hqp => absurd hqp (lt_asymm hpq)) hsorted
    hsorted' ((List.perm_ext_iff_of_nodup h.nodup h'.nodup).mpr fun p => ?_)
  rw [h.mem, h'.mem]

/-- A nest for the domain `d` and the transform `t`, whose tuples are the images of the points. -/
structure Realizes (nest : Nest) (d : Domain) (t : Transform) : Prop where
  domain : nest.domain = d
  transform : nest.transform = t
  inverse : nest.inverse = t.inverse
  wellFormed : d.WellFormed
  proper : t.Proper
  dim_eq : d.dim = t.dim
  forward : nest.Forward
  defined : nest.Defined
  mem_tuples : ∀ q, q ∈ nest.tuples ↔ ∃ p, d.contains p ∧ t.apply p = q

namespace Realizes

theorem inverts (h : nest.Realizes d t) : nest.Inverts :=
  inverts_of_mem_tuples h.proper h.dim_eq h.inverse h.mem_tuples

theorem enumerates (h : nest.Realizes d t) : nest.Enumerates d t nest.iterations :=
  enumerates_of_proper h.proper h.dim_eq h.inverse h.forward h.defined h.mem_tuples

theorem perm_points (h : nest.Realizes d t) : nest.iterations.Perm d.points := by
  have hnodup : d.points.Nodup := (Domain.pairwise_points h.wellFormed).imp fun hlt => hlt.ne
  refine (List.perm_ext_iff_of_nodup h.enumerates.nodup hnodup).mpr fun p => ?_
  rw [h.enumerates.mem, Domain.mem_points h.wellFormed]

theorem withBody (h : nest.Realizes d t) (rule : UpdateRule) : (nest.withBody rule).Realizes d t :=
  { h with }

end Realizes

end AffineLoops.Nest
