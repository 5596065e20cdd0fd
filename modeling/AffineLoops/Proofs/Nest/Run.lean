import AffineLoops.Proofs.Nest.Walk
import AffineLoops.Proofs.Rule.Locality
/-!
# Runs of a nest

A run executes the statement at the iterations behind the tuples of loop values, one after the other.
It fails at the first tuple that stands for no iteration, whose iteration reads a cell that does not
exist, or whose own cell does not exist, and that iteration changes nothing. So a run leaves behind
what the iterations before its end have made of the grid, and cells of other iterations are as they
were.

## Main definitions

- `Nest.executeAt` — the statement at one tuple of loop values
- `Nest.Keeps` — a grid that differs only in the cells of some iterations
- `Nest.keeps_of_executeAt`, `Nest.keeps_of_foldlM` — what one execution and a sequence of them change
- `Nest.run_exact` — what a run comes to
-/

namespace AffineLoops

variable {rule : UpdateRule} {aux : Option Grid} {g g' g'' : Grid} {p q : Point} {qs : List Point}

namespace Nest

variable {nest : Nest}

/-- The grid after the rule was executed at the iteration behind a tuple of loop values: the tuple must
stand for an iteration, and all cells that this one reads and writes must exist. -/
def executeAt (nest : Nest) (rule : UpdateRule) (aux : Option Grid) (g : Grid) (q : Point) :
    Except Error Grid := do
  let p ← nest.inverse.apply q
  let v ← rule.value g aux p
  (g.set p v).mapError .domain

/-- What happens at one tuple is one execution, or nothing. -/
theorem run_executeAt (nest : Nest) (rule : UpdateRule) (aux : Option Grid) (g : Grid) (q : Point) :
    (match nest.inverse.apply q with
      | .ok p => rule.apply aux p
      | .error e => throw e : Stateful Grid Unit).run.run g =
      Stateful.settle g (nest.executeAt rule aux g q) := by
  rw [executeAt]
  cases nest.inverse.apply q with
  | error e => rfl
  | ok p => exact UpdateRule.run_apply

theorem executeAt_eq_ok : nest.executeAt rule aux g q = .ok g' ↔
    ∃ p v k, nest.inverse.apply q = .ok p ∧ rule.value g aux p = .ok v ∧
      g.shape.linearIndex? p = some k ∧ g.setIndex k v = g' := by
  simp only [executeAt, Except.bind_eq_ok, Except.mapError_eq_ok, Grid.set_eq_ok_iff]
  constructor
  · rintro ⟨p, hp, v, hv, k, hk, hset⟩
    exact ⟨p, v, k, hp, hv, hk, hset⟩
  · rintro ⟨p, v, k, hp, hv, hk, hset⟩
    exact ⟨p, hp, v, hv, k, hk, hset⟩

/-! ### What is left as it was -/

/-- The second grid differs from the first one at most in the cells of the iterations behind some tuples
of loop values. -/
structure Keeps (nest : Nest) (qs : List Point) (g g' : Grid) : Prop where
  shape_eq : g'.shape = g.shape
  wellFormed : g.WellFormed → g'.WellFormed
  get_eq : ∀ p, (∀ q ∈ qs, nest.inverse.apply q ≠ .ok p) → g'.get p = g.get p

theorem Keeps.refl (nest : Nest) (g : Grid) : nest.Keeps [] g g :=
  ⟨rfl, id, fun _ _ => rfl⟩

theorem Keeps.cons (h : nest.Keeps [q] g g') (hrest : nest.Keeps qs g' g'') :
    nest.Keeps (q :: qs) g g'' where
  shape_eq := hrest.shape_eq.trans h.shape_eq
  wellFormed := hrest.wellFormed ∘ h.wellFormed
  get_eq p hp := by
    obtain ⟨hq, hqs⟩ := List.forall_mem_cons.mp hp
    exact (hrest.get_eq p hqs).trans (h.get_eq p (List.forall_mem_singleton.mpr hq))

/-- An execution writes the cell of its own iteration, which is the cell of no other one. -/
theorem keeps_of_executeAt (hshape : g.shape.WellFormed) (h : nest.executeAt rule aux g q = .ok g') :
    nest.Keeps [q] g g' := by
  obtain ⟨p, v, k, hp, -, hk, rfl⟩ := executeAt_eq_ok.mp h
  refine ⟨rfl, fun hwf => Grid.setIndex_wellFormed hwf k v, fun p' hp' => ?_⟩
  refine Grid.get_setIndex_of_ne fun hk' => List.forall_mem_singleton.mp hp' ?_
  rw [hp, Domain.linearIndex?_inj hshape hk hk']

theorem keeps_of_foldlM (hshape : g.shape.WellFormed)
    (h : qs.foldlM (nest.executeAt rule aux) g = .ok g') : nest.Keeps qs g g' := by
  induction qs generalizing g with
  | nil =>
    cases h
    exact .refl nest _
  | cons q qs ih =>
    rw [List.foldlM_cons] at h
    obtain ⟨next, hnext, hrest⟩ := Except.bind_eq_ok.mp h
    have hkeeps := keeps_of_executeAt hshape hnext
    exact hkeeps.cons (ih (hkeeps.shape_eq ▸ hshape) hrest)

/-! ### Runs -/

/-- A walk that executes a rule goes through the tuples, and stops at the first one where it fails. -/
theorem run_visit_cases (hpos : nest.Forward) (hdef : nest.Defined) (rule : UpdateRule)
    (aux : Option Grid) (g : Grid) :
    (∃ g', nest.tuples.foldlM (nest.executeAt rule aux) g = .ok g' ∧
      (nest.visit (rule.apply aux)).run.run g = (.ok (), g')) ∨
    ∃ before q after e g', nest.tuples = before ++ q :: after ∧
      before.foldlM (nest.executeAt rule aux) g = .ok g' ∧ nest.executeAt rule aux g' q = .error e ∧
        (nest.visit (rule.apply aux)).run.run g = (.error e, g') := by
  rw [visit, walk_eq_forM hpos hdef]
  exact Stateful.run_forM_cases (run_executeAt nest rule aux) nest.tuples g

/-- A run that comes to its end has changed no cells but those of its iterations. -/
theorem keeps_of_final (hpos : nest.Forward) (hshape : g.shape.WellFormed)
    (h : (nest.visit (rule.apply aux)).final g = some g') : nest.Keeps nest.tuples g g' := by
  obtain ⟨hdef, -⟩ := defined_and_inverts_of_final hpos h
  rw [Stateful.final_eq_some] at h
  rcases run_visit_cases hpos hdef rule aux g with ⟨_, hfold, hrun⟩ | ⟨_, _, _, _, _, -, -, -, hrun⟩
  · cases hrun.symm.trans h
    exact keeps_of_foldlM hshape hfold
  · cases hrun.symm.trans h

/-- A run of a nest with positive strides whose tuples of loop values are `qs`. Either it succeeds, and
the grid afterwards is what the executions at all tuples make of it, one after the other. Or there is a
first tuple at which the inverse map, a read or the write fails; then the run fails with that error, and
the grid afterwards is what the executions before it have made of it. In both cases it has the shape
that it had, and the same content in every cell whose iteration was not executed. -/
theorem run_exact (hbody : nest.body = some rule) (hstep : ∀ l ∈ nest.loops, 0 < l.step)
    (hqs : nest.transformedPoints = .ok qs) (aux : Option Grid) (hshape : g.shape.WellFormed)
    (hwf : g.WellFormed) :
    (∃ g', (nest.run aux).run.run g = (.ok (), g') ∧
      qs.foldlM (nest.executeAt rule aux) g = .ok g' ∧
        g'.shape = g.shape ∧ g'.WellFormed ∧
          ∀ p, (∀ q ∈ qs, nest.inverse.apply q ≠ .ok p) → g'.get p = g.get p) ∨
    ∃ before q after e g', qs = before ++ q :: after ∧ (nest.run aux).run.run g = (.error e, g') ∧
      before.foldlM (nest.executeAt rule aux) g = .ok g' ∧ nest.executeAt rule aux g' q = .error e ∧
        g'.shape = g.shape ∧ g'.WellFormed ∧
          ∀ p, (∀ q ∈ before, nest.inverse.apply q ≠ .ok p) → g'.get p = g.get p := by
  obtain ⟨hdef, rfl⟩ := (transformedPoints_eq_ok_iff hstep).mp hqs
  have hvisit : nest.run aux = nest.visit (rule.apply aux) := by
    rw [run, hbody]
  rw [hvisit]
  rcases run_visit_cases hstep hdef rule aux g with
    ⟨g', hfold, hrun⟩ | ⟨before, q, after, e, g', hsplit, hfold, hfail, hrun⟩
  · have hkeeps := keeps_of_foldlM hshape hfold
    exact Or.inl ⟨g', hrun, hfold, hkeeps.shape_eq, hkeeps.wellFormed hwf, hkeeps.get_eq⟩
  · have hkeeps := keeps_of_foldlM hshape hfold
    exact Or.inr ⟨before, q, after, e, g', hsplit, hrun, hfold, hfail, hkeeps.shape_eq,
      hkeeps.wellFormed hwf, hkeeps.get_eq⟩

/-- Three cells that take the values of the ones before them, from the last one on. -/
def shiftNest : Nest where
  domain := ⟨[0], [3]⟩
  transform := ⟨⟨1, 1, #v[#v[-1]]⟩, -1⟩
  loops := [referenceLoop 0 (-2) 1]
  inverse := ⟨.identity 1, -1⟩
  body := some (.stencil "previous" [[-1]])

/-- The last iteration reads a cell before the first one. The other two have been executed by then, and
the cell of the last one is as it was. -/
theorem run_exact_shiftNest : ∃ e g',
    (shiftNest.run none).run.run ⟨⟨[0], [3]⟩, #[5, 7, 9]⟩ = (.error e, g') ∧
      [[-2], [-1]].foldlM (shiftNest.executeAt (.stencil "previous" [[-1]]) none)
        ⟨⟨[0], [3]⟩, #[5, 7, 9]⟩ = .ok g' ∧ g'.get [0] = .ok 5 := by
  have hqs : shiftNest.transformedPoints = .ok [[-2], [-1], [0]] := by decide +kernel
  rcases run_exact rfl (by decide : ∀ l ∈ shiftNest.loops, 0 < l.step) hqs none
    (g := ⟨⟨[0], [3]⟩, #[5, 7, 9]⟩) (.cons (by decide) .nil) (by decide) with
    ⟨g', -, hfold, -⟩ | ⟨before, q, after, e, g', hsplit, hrun, hfold, hfail, -, -, hget⟩
  · cases hfold
  · rcases before with _ | ⟨_, _ | ⟨_, _ | ⟨_, before⟩⟩⟩
    · cases hsplit
      cases hfold
      cases hfail
    · cases hsplit
      cases hfold
      cases hfail
    · cases hsplit
      exact ⟨e, g', hrun, hfold, hget [0] (by decide +kernel)⟩
    · simp at hsplit

end Nest

end AffineLoops
