import AffineLoops.Proofs.Derivation.General
import AffineLoops.Proofs.Oracle.Equivalence
import AffineLoops.Proofs.Rule.Run
/-!
# Wavefronts

The iterations that a derived nest visits at one value of its outermost loop are a wavefront. When a
transform makes the first coordinate of every dependence negative, each dependence leads from one
wavefront to an earlier one. Then no iteration of a wavefront reads the cell of another one, and the
iterations of a wavefront can be executed in any order.

## Main definitions

- `DependencePattern.OuterCarried` — every dependence is carried by the outermost loop
- `SameWavefronts` — a list of visits in which only visits of one wavefront have changed places
- `Nest.Realizes.outer_ne_of_conflicts` — the iterations of a wavefront are independent
- `Nest.run_eq_of_sameWavefronts` — all orders inside the wavefronts have the same effect
-/

namespace AffineLoops

/-- The transform takes every offset to a vector with a negative first coordinate. -/
def DependencePattern.OuterCarried (deps : DependencePattern) (t : Transform) : Prop :=
  ∀ o ∈ deps.offsets, ∃ c, (t.apply o).head? = some c ∧ c < 0

/-- The value of the outermost loop at a visit, which is a tuple of loop values and an iteration. -/
def outerValue (visit : Point × Point) : Option ℤ :=
  visit.1.head?

/-- The second list holds the same visits, and their outermost values come in the same sequence. So
it differs from the first list by exchanges inside the wavefronts. -/
structure SameWavefronts (visits visits' : List (Point × Point)) : Prop where
  perm : visits'.Perm visits
  outer : visits'.map outerValue = visits.map outerValue

variable {nest : Nest} {d : Domain} {t : Transform} {rule : UpdateRule} {deps : DependencePattern}
  {aux : Option Grid} {p q o : Point}

namespace Transform.Proper

/-- Only vectors with a coordinate per axis have an image with coordinates. -/
theorem length_of_head? (h : t.Proper) {c : ℤ} (hc : (t.apply o).head? = some c) :
    o.length = t.dim := by
  by_contra hne
  have hnone : t.matrix.mulVec? o = none := if_neg fun hlen => hne (hlen.symm.trans h.square)
  rw [Transform.apply, hnone] at hc
  cases hc

/-- Moving an iteration along a carried dependence leads to an earlier wavefront. -/
theorem headD_apply_shift_lt (h : t.Proper) (hcarried : deps.OuterCarried t) (ho : o ∈ deps.offsets)
    (hp : p.length = t.dim) : (t.apply (p.shift o)).headD 0 < (t.apply p).headD 0 := by
  obtain ⟨c, hc, hneg⟩ := hcarried o ho
  have hlen := h.length_of_head? hc
  have hhead : (t.apply o).headD 0 = c := by rw [List.headD_eq_head?_getD, hc, Option.getD_some]
  rw [h.apply_shift hp hlen,
    Point.headD_shift ((h.length_apply hlen).trans (h.length_apply hp).symm), hhead]
  omega

end Transform.Proper

namespace Nest.Realizes

theorem pairwise_outer (h : nest.Realizes d t) :
    (nest.iterations.map fun p => (t.apply p).headD 0).Pairwise (· ≤ ·) := by
  have hsorted := List.pairwise_map.mp h.enumerates.sorted
  rw [List.pairwise_map]
  refine hsorted.imp_of_mem fun {p q} hp hq hlt => Point.headD_le_of_lt ?_ hlt
  have hlength : ∀ p ∈ nest.iterations, (t.apply p).length = t.dim := fun p hp =>
    h.proper.length_apply
      ((Domain.length_of_contains ((h.enumerates.mem p).mp hp)).trans h.dim_eq)
  rw [hlength p hp, hlength q hq]

/-- Two iterations of one wavefront do not read each other's cells. -/
theorem outer_ne_of_conflicts (h : nest.Realizes d t)
    (hdeps : rule.dependencePattern d.dim = .ok deps) (hcarried : deps.OuterCarried t)
    (hp : d.contains p) (hq : d.contains q) (hne : p ≠ q) (hconflict : rule.Conflicts p q) :
    (t.apply p).headD 0 ≠ (t.apply q).headD 0 := by
  have hplen := Domain.length_of_contains hp
  have hqlen := Domain.length_of_contains hq
  rcases DependencePattern.depends_of_conflicts (UpdateRule.covers_of_dependencePattern hdeps) hplen
    hqlen hne hconflict with ⟨-, o, ho, rfl⟩ | ⟨-, o, ho, rfl⟩
  · exact (h.proper.headD_apply_shift_lt hcarried ho (hplen.trans h.dim_eq)).ne'
  · exact (h.proper.headD_apply_shift_lt hcarried ho (hqlen.trans h.dim_eq)).ne

/-- Iterations in an order with the same sequence of wavefronts have the effect of the nest. -/
theorem final_forM_eq (h : nest.Realizes d t) (hdeps : rule.dependencePattern d.dim = .ok deps)
    (hcarried : deps.OuterCarried t) {ps : List Point} (hperm : ps.Perm nest.iterations)
    (houter : ps.map (fun p => (t.apply p).headD 0) =
      nest.iterations.map fun p => (t.apply p).headD 0)
    {input : Grid} (hshape : input.shape.WellFormed) :
    (forM ps (rule.apply aux)).final input = (nest.visit (rule.apply aux)).final input := by
  rw [final_visit_apply h.forward h.defined h.inverts, UpdateRule.final_forM_apply]
  have hindep : nest.iterations.Pairwise fun p q =>
      rule.Conflicts p q → (t.apply p).headD 0 ≠ (t.apply q).headD 0 :=
    h.enumerates.nodup.imp_of_mem fun hp hq hne => h.outer_ne_of_conflicts hdeps hcarried
      ((h.enumerates.mem _).mp hp) ((h.enumerates.mem _).mp hq) hne
  exact foldlM_eq_of_ranks (fun p => (t.apply p).headD 0) (fun g => g.shape = input.shape)
    rule.Conflicts (fun g p g' hg hstep => (UpdateRule.shape_step? hstep).trans hg)
    (fun p q hpq => hpq.symm)
    (fun p _ q _ hpq => UpdateRule.commutes_of_not_conflicts hshape hpq) hindep h.pairwise_outer
    hperm houter rfl

end Nest.Realizes

/-- The iterations of a wavefront can be executed in any order. Let a nest be derived for a transform
that takes every dependence of a rule to a vector with a negative first coordinate, and let its visits
be rearranged in any way inside the wavefronts. Executing the rule along the rearranged iterations
leaves the grid behind that a run of the nest leaves behind, or fails like that run. -/
theorem Nest.run_eq_of_sameWavefronts (hd : d.WellFormed) (ht : t.Proper)
    (hnest : derive d t = .ok nest) (hdeps : rule.dependencePattern d.dim = .ok deps)
    (hcarried : deps.OuterCarried t) {input : Grid} (hshape : input.shape.WellFormed)
    (aux : Option Grid) :
    ∃ visits, nest.transformedPoints = .ok (visits.map Prod.fst) ∧
      nest.iterationPoints = .ok (visits.map Prod.snd) ∧
      ∀ visits', SameWavefronts visits visits' →
        (forM (visits'.map Prod.snd) (rule.apply aux)).final input =
          ((nest.withBody rule).run aux).final input := by
  have hreal := realizes_of_derive hd ht hnest
  refine ⟨nest.iterations.map fun p => (t.apply p, p), ?_, ?_, fun visits' hsame => ?_⟩
  · rw [List.map_map]
    exact hreal.enumerates.transformedPoints
  · rw [List.map_map]
    exact hreal.enumerates.iterationPoints.trans (congrArg _ (List.map_id _).symm)
  · -- the visits are the iterations with their images, before and after the rearrangement
    have hpair : ∀ v ∈ visits', v.1 = t.apply v.2 := by
      intro v hv
      obtain ⟨p, -, rfl⟩ := List.mem_map.mp (hsame.perm.subset hv)
      rfl
    have hperm : (visits'.map Prod.snd).Perm nest.iterations := by
      have hmap := hsame.perm.map Prod.snd
      rwa [List.map_map, show Prod.snd ∘ (fun p => (t.apply p, p)) = id from rfl, List.map_id] at hmap
    refine hreal.final_forM_eq hdeps hcarried hperm ?_ hshape
    calc (visits'.map Prod.snd).map (fun p => (t.apply p).headD 0)
        = (visits'.map outerValue).map (·.getD 0) := by
          rw [List.map_map, List.map_map]
          refine List.map_congr_left fun v hv => ?_
          rw [Function.comp_apply, Function.comp_apply, outerValue, hpair v hv,
            List.headD_eq_head?_getD]
      _ = nest.iterations.map fun p => (t.apply p).headD 0 := by
          rw [hsame.outer, List.map_map, List.map_map]
          refine List.map_congr_left fun p _ => ?_
          rw [Function.comp_apply, Function.comp_apply, outerValue, List.headD_eq_head?_getD]

/-- The skewed sum of neighbours over a square of side 2, with the two iterations of the middle
wavefront exchanged. -/
theorem Nest.run_eq_of_exchange :
    ∃ nest, derive ⟨[1, 1], [3, 3]⟩ ⟨⟨2, 2, #v[#v[1, 1], #v[0, 1]]⟩, 1⟩ = .ok nest ∧
      nest.iterationPoints = .ok [[1, 1], [2, 1], [1, 2], [2, 2]] ∧
      (forM [[1, 1], [1, 2], [2, 1], [2, 2]]
        ((UpdateRule.stencil "sum" [[-1, 0], [0, -1]]).apply none)).final
          (Grid.repeating ⟨[0, 0], [3, 3]⟩ #[1, 2, 3, 4]) =
        ((nest.withBody (.stencil "sum" [[-1, 0], [0, -1]])).run none).final
          (Grid.repeating ⟨[0, 0], [3, 3]⟩ #[1, 2, 3, 4]) := by
  have hdomain : Domain.WellFormed ⟨[1, 1], [3, 3]⟩ := .cons (by decide) (.cons (by decide) .nil)
  have hmade : Transform.Constructed ⟨⟨2, 2, #v[#v[1, 1], #v[0, 1]]⟩, 1⟩ :=
    .ofMatrix (m := ⟨2, 2, #v[#v[1, 1], #v[0, 1]]⟩) (by decide)
  have hdeps : (UpdateRule.stencil "sum" [[-1, 0], [0, -1]]).dependencePattern 2 =
      .ok ⟨2, [[-1, 0], [0, -1]]⟩ := by decide +kernel
  have hcarried : DependencePattern.OuterCarried ⟨2, [[-1, 0], [0, -1]]⟩
      ⟨⟨2, 2, #v[#v[1, 1], #v[0, 1]]⟩, 1⟩ := by
    intro o ho
    simp only [List.mem_cons, List.not_mem_nil, or_false] at ho
    rcases ho with rfl | rfl
    · exact ⟨-1, by decide, by decide⟩
    · exact ⟨-1, by decide, by decide⟩
  have hshape : (Grid.repeating ⟨[0, 0], [3, 3]⟩ #[1, 2, 3, 4]).shape.WellFormed :=
    .cons (by decide) (.cons (by decide) .nil)
  obtain ⟨nest, hnest, -⟩ := exists_derive hdomain hmade.wellFormed.proper rfl (Or.inl rfl)
  obtain ⟨visits, htuples, hpoints, hrun⟩ := run_eq_of_sameWavefronts hdomain
    hmade.wellFormed.proper hnest hdeps hcarried hshape none
  have htuples' : (derive ⟨[1, 1], [3, 3]⟩ ⟨⟨2, 2, #v[#v[1, 1], #v[0, 1]]⟩, 1⟩ >>=
      Nest.transformedPoints) = .ok [[2, 1], [3, 1], [3, 2], [4, 2]] := by decide +kernel
  have hpoints' : (derive ⟨[1, 1], [3, 3]⟩ ⟨⟨2, 2, #v[#v[1, 1], #v[0, 1]]⟩, 1⟩ >>=
      Nest.iterationPoints) = .ok [[1, 1], [2, 1], [1, 2], [2, 2]] := by decide +kernel
  rw [hnest, Except.bind_ok] at htuples' hpoints'
  have hvisits := List.zip_of_prod (Except.ok.inj (htuples.symm.trans htuples'))
    (Except.ok.inj (hpoints.symm.trans hpoints'))
  refine ⟨nest, hnest, hpoints', hrun [([2, 1], [1, 1]), ([3, 2], [1, 2]), ([3, 1], [2, 1]),
    ([4, 2], [2, 2])] ?_⟩
  rw [hvisits]
  exact ⟨by decide, by decide⟩

end AffineLoops
