import AffineLoops.Proofs.Domain
import AffineLoops.Proofs.Lattice.Diagonal
import AffineLoops.Proofs.Nest.Walk
import AffineLoops.Proofs.Transform.Inverse
/-!
# The reference nest

The reference nest of a domain visits its points in the order in which they are enumerated, and its
inverse map takes every tuple of loop values to itself.

## Main definitions

- `Nest.reference_iterations` — the iterations are the points of the domain
-/

namespace AffineLoops.Nest

variable {d : Domain}

theorem turns_one (l u : ℤ) : Loop.turns l (u - 1) 1 = (u - l).toNat := by
  unfold Loop.turns
  split
  · omega
  · rw [if_pos one_pos, Int.ediv_one]
    omega

/-- The loop of one axis runs over the coordinates of the axis. -/
theorem values_referenceLoop (axis : ℕ) (l u : ℤ) (outer : Point) :
    (referenceLoop axis l u).values outer = Domain.axis l u := by
  rw [Loop.values, referenceLoop, Bound.eval, Bound.eval, turns_one, Domain.axis]
  simp only [mul_one]

theorem tuplesFrom_reference (ls us : Point) (start : ℕ) (outer : Point) :
    tuplesFrom (((ls.zip us).zipIdx start).map fun ((l, u), axis) => referenceLoop axis l u) outer =
      (Domain.box ls us).map (outer ++ ·) := by
  -- the axes are numbered from `start` on, which moves as loops are taken off the front
  induction ls generalizing us start outer with
  | nil => simp [tuplesFrom, Domain.box]
  | cons l ls ih =>
    cases us with
    | nil => simp [tuplesFrom, Domain.box]
    | cons u us =>
      rw [List.zip_cons_cons, List.zipIdx_cons, List.map_cons, tuplesFrom, values_referenceLoop,
        Domain.box, List.map_flatMap]
      refine congrArg (List.flatMap · _) (funext fun x => ?_)
      rw [ih, List.map_map]
      refine List.map_congr_left fun p _ => ?_
      rw [Function.comp_apply, List.append_assoc, List.singleton_append]

theorem tuples_reference (d : Domain) : (reference d).tuples = Domain.box d.lower d.upper := by
  rw [tuples, reference, tuplesFrom_reference]
  exact List.map_id' _

/-- The tuples of the reference nest are the points of the box, whether or not it is empty. -/
theorem mem_tuples_reference (hlen : d.lower.length = d.upper.length) {q : Point} :
    q ∈ (reference d).tuples ↔ d.contains q := by
  rw [tuples_reference, Domain.mem_box hlen, Domain.contains, Bool.and_eq_true, beq_iff_eq, Domain.dim]

theorem mem_loops_reference {l : Loop} (h : l ∈ (reference d).loops) :
    ∃ axis lower upper, l = referenceLoop axis lower upper := by
  obtain ⟨⟨⟨lower, upper⟩, axis⟩, -, rfl⟩ := List.mem_map.mp h
  exact ⟨axis, lower, upper, rfl⟩

theorem reference_forward (d : Domain) : (reference d).Forward := by
  intro l hl
  obtain ⟨axis, lower, upper, rfl⟩ := mem_loops_reference hl
  exact one_pos

theorem reference_defined (d : Domain) : (reference d).Defined := by
  refine definedFrom_of_forall (fun l hl => ?_) []
  obtain ⟨axis, lower, upper, rfl⟩ := mem_loops_reference hl
  exact ⟨rfl, rfl⟩

/-- The inverse map of the reference nest changes nothing. -/
theorem apply_inverse_reference {p : Point} (h : p.length = d.dim) :
    (reference d).inverse.apply p = .ok p := by
  have hmul : (InverseMap.identity d.dim).adjugate.mulVec? p = some p :=
    IntMatrix.mulVec?_identity h
  change (InverseMap.identity d.dim).apply p = .ok p
  rw [InverseMap.apply, hmul]
  refine (InverseMap.mapM_divide_eq_ok one_ne_zero).mpr ?_
  simp [InverseMap.identity]

theorem length_of_mem_box (hd : d.WellFormed) {p : Point}
    (h : p ∈ Domain.box d.lower d.upper) : p.length = d.dim :=
  ((Domain.mem_box hd.length_eq).mp h).1

theorem reference_inverts (hd : d.WellFormed) : (reference d).Inverts := by
  intro q hq
  rw [tuples_reference] at hq
  exact ⟨q, apply_inverse_reference (length_of_mem_box hd hq)⟩

/-- The reference nest visits the points of its domain in lexicographic order. -/
theorem reference_iterations (hd : d.WellFormed) : (reference d).iterations = d.points := by
  rw [iterations, tuples_reference, Domain.points_eq_box hd]
  refine (List.map_congr_left fun q hq => ?_).trans (List.map_id _)
  rw [id_eq, iterationOf_eq (apply_inverse_reference (length_of_mem_box hd hq))]

end AffineLoops.Nest
