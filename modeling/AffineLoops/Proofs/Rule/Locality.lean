import AffineLoops.Proofs.Dependence.Schedule
import AffineLoops.Proofs.Except
import AffineLoops.Proofs.Grid
import AffineLoops.Proofs.Stateful
/-!
# Locality of update rules

The value that a rule assigns depends on the cells that it reads and on nothing else of the main
grid, and whether it has one depends only on the shape. So two iterations neither of which reads the
cell of the other can be executed in either order.

## Main definitions

- `UpdateRule.step?` — the grid after one iteration, if it does not fail
- `UpdateRule.Reads`, `UpdateRule.Conflicts` — one iteration reads the cell of another
- `UpdateRule.commutes_of_not_conflicts` — iterations that do not conflict commute
- `UpdateRule.run_apply`, `UpdateRule.cases_of_error?_apply` — what an iteration comes to, and why it
  fails
- `UpdateRule.final_forM_apply` — a run over a list of iterations, step by step
-/

namespace AffineLoops

/-- An expression has the same value, or the same error, on grids that agree on what it reads. -/
theorem CellExpr.eval_congr {e : CellExpr} {g h : Grid} {aux : Option Grid} {p : Point}
    (hread : ∀ o ∈ e.reads, g.get (p.shift o) = h.get (p.shift o)) :
    e.eval g aux p = e.eval h aux p := by
  have hbinary : ∀ {a b : CellExpr},
      ((∀ o ∈ a.reads, g.get (p.shift o) = h.get (p.shift o)) → a.eval g aux p = a.eval h aux p) →
      ((∀ o ∈ b.reads, g.get (p.shift o) = h.get (p.shift o)) → b.eval g aux p = b.eval h aux p) →
      (∀ o ∈ a.reads ++ b.reads, g.get (p.shift o) = h.get (p.shift o)) →
        a.eval g aux p = a.eval h aux p ∧ b.eval g aux p = b.eval h aux p :=
    fun iha ihb hab => ⟨iha fun o ho => hab o (List.mem_append_left _ ho),
      ihb fun o ho => hab o (List.mem_append_right _ ho)⟩
  induction e with
  | read o => rw [eval, eval, hread o List.mem_cons_self]
  | aux o => rfl
  | const value => rfl
  | add a b iha ihb =>
    obtain ⟨ha, hb⟩ := hbinary iha ihb hread
    rw [eval, eval, ha, hb]
  | sub a b iha ihb =>
    obtain ⟨ha, hb⟩ := hbinary iha ihb hread
    rw [eval, eval, ha, hb]
  | max a b iha ihb =>
    obtain ⟨ha, hb⟩ := hbinary iha ihb hread
    rw [eval, eval, ha, hb]
  | min a b iha ihb =>
    obtain ⟨ha, hb⟩ := hbinary iha ihb hread
    rw [eval, eval, ha, hb]

namespace UpdateRule

variable {r : UpdateRule} {aux : Option Grid} {g g' : Grid} {p q : Point} {k : ℕ} {v : Cell}

/-- The grid after one iteration, unless it fails. -/
def step? (r : UpdateRule) (aux : Option Grid) (g : Grid) (p : Point) : Option Grid := do
  let v ← (r.value g aux p).toOption
  let k ← g.shape.linearIndex? p
  return g.setIndex k v

/-- The iteration `p` reads the cell of the iteration `q`. -/
def Reads (r : UpdateRule) (p q : Point) : Prop :=
  ∃ o ∈ r.reads, p.shift o = q

/-- One of the two iterations reads the cell of the other. -/
def Conflicts (r : UpdateRule) (p q : Point) : Prop :=
  r.Reads p q ∨ r.Reads q p

theorem Conflicts.symm (h : r.Conflicts p q) : r.Conflicts q p :=
  Or.symm h

/-- An iteration does not see what is written to a cell that it does not read. -/
theorem value_setIndex (hshape : g.shape.WellFormed) (hq : g.shape.linearIndex? q = some k)
    (h : ¬r.Reads p q) : r.value (g.setIndex k v) aux p = r.value g aux p := by
  refine CellExpr.eval_congr fun o ho => Grid.get_setIndex_of_ne fun hk => h ⟨o, ho, ?_⟩
  exact Domain.linearIndex?_inj hshape hk hq

theorem step?_eq_some_iff : r.step? aux g p = some g' ↔
    ∃ v k, r.value g aux p = .ok v ∧ g.shape.linearIndex? p = some k ∧ g.setIndex k v = g' := by
  rw [step?]
  cases r.value g aux p with
  | error e => simp [Except.toOption]
  | ok v => simp [Except.toOption, Option.bind_eq_some_iff]

theorem shape_step? (h : r.step? aux g p = some g') : g'.shape = g.shape := by
  obtain ⟨v, k, -, -, rfl⟩ := step?_eq_some_iff.mp h
  rfl

/-- Two iterations in a row, when the second one does not read the cell of the first one. -/
theorem step?_step? (hshape : g.shape.WellFormed) (h : ¬r.Reads q p) :
    (r.step? aux g p >>= fun g' => r.step? aux g' q) = (do
      let v ← (r.value g aux p).toOption
      let k ← g.shape.linearIndex? p
      let w ← (r.value g aux q).toOption
      let l ← g.shape.linearIndex? q
      return (g.setIndex k v).setIndex l w) := by
  unfold step?
  cases (r.value g aux p).toOption with
  | none => rfl
  | some v =>
    cases hk : g.shape.linearIndex? p with
    | none => rfl
    | some k =>
      change ((r.value (g.setIndex k v) aux q).toOption >>= fun w =>
        (g.setIndex k v).shape.linearIndex? q >>= fun l => some ((g.setIndex k v).setIndex l w)) = _
      rw [value_setIndex hshape hk h]
      rfl

/-- Iterations that do not conflict have the same effect in both orders. -/
theorem commutes_of_not_conflicts {shape : Domain} (hshape : shape.WellFormed)
    (h : ¬r.Conflicts p q) : Commutes (r.step? aux) (fun g => g.shape = shape) p q := by
  rintro g rfl
  by_cases hpq : p = q
  · rw [hpq]
  rw [step?_step? hshape fun hqp => h (Or.inr hqp), step?_step? hshape fun hpq => h (Or.inl hpq)]
  cases (r.value g aux p).toOption <;> cases hk : g.shape.linearIndex? p <;>
    cases (r.value g aux q).toOption <;> cases hl : g.shape.linearIndex? q <;> try rfl
  -- only when all four succeed do the two orders write anything
  next v k w l =>
    have hne : k ≠ l := fun heq => hpq (Domain.linearIndex?_inj hshape hk (heq ▸ hl))
    exact congrArg some (Grid.setIndex_comm hne)

/-- An iteration computes its value and writes it, and changes nothing if one of the two fails. -/
theorem run_apply : (r.apply aux p).run.run g =
    Stateful.settle g (do (g.set p (← r.value g aux p)).mapError .domain) := by
  have hrun : (r.apply aux p).run.run g = r.applyTo aux p g := rfl
  rw [hrun, applyTo]
  cases r.value g aux p with
  | error e => rfl
  | ok v =>
    rw [Except.bind_ok, Grid.set]
    cases g.shape.linearIndex? p <;> rfl

theorem final_apply : (r.apply aux p).final g = r.step? aux g p := by
  rw [Stateful.final_of_settle run_apply, step?]
  cases r.value g aux p with
  | error e => rfl
  | ok v =>
    rw [Except.bind_ok, Grid.set]
    cases g.shape.linearIndex? p <;> rfl

/-- An iteration fails like its expression, or because there is no cell to write. -/
theorem cases_of_error?_apply {e : Error} (h : (r.apply aux p).error? g = some e) :
    r.value g aux p = .error e ∨ ¬g.shape.contains p ∧ e = .domain (g.outside p) := by
  rcases Except.bind_eq_error.mp (Stateful.error?_of_settle run_apply h) with hvalue | ⟨v, -, hset⟩
  · exact Or.inl hvalue
  · obtain ⟨cause, hcause, rfl⟩ := Except.mapError_eq_error.mp hset
    obtain ⟨hp, rfl⟩ := Grid.set_eq_error_iff.mp hcause
    exact Or.inr ⟨hp, rfl⟩

/-- A run over a list of iterations takes one step for each of them. -/
theorem final_forM_apply (ps : List Point) :
    (forM ps (r.apply aux)).final g = ps.foldlM (r.step? aux) g := by
  rw [Stateful.final_forM]
  simp only [final_apply]

end UpdateRule

end AffineLoops
