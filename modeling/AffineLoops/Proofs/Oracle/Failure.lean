import AffineLoops.Proofs.Nest.Checks
import AffineLoops.Proofs.Oracle.Equivalence
/-!
# What a comparison fails with

A loop with a positive stride comes to its end, so a run over such loops fails only for what it meets
on the way: a cell that no grid has, a tuple of loop values that stands for no iteration, or a
division by zero. A comparison of two nests can moreover find that their domains differ, and a check
of one nest that it does not visit its domain.

## Main definitions

- `Error.Structural` — the errors that are not a matter of time or of order
- `Nest.structural_of_visit` — the errors of a run
- `Nest.structural_of_verifyOrder`, `Oracle.structural_of_check` — the errors of a check and of a
  comparison
-/

namespace AffineLoops

/-- What keeps a run or a check from its result although every loop ends. -/
inductive Error.Structural : Error → Prop
  /-- A cell that no grid has is looked up, or there are no values to draw. -/
  | outside (cause : DomainError) : Structural (.domain cause)
  /-- The tuples of loop values are not those of the iterations of the domain. -/
  | mismatch {e : Error} (h : e.derivationKind? = some .boundsMismatch) : Structural e
  /-- Nests over different domains are compared. -/
  | domains (reference transformed : Domain) (name : String) :
      Structural (.equivalence (.domainsDiffer reference transformed name))
  /-- A bound or the inverse map divides by zero. -/
  | division : Structural (.fault .divisionByZero)

variable {rule : UpdateRule} {aux : Option Grid} {input : Grid} {e : Error}

theorem CellExpr.exists_domain_of_eval {expr : CellExpr} {p : Point}
    (h : expr.eval input aux p = .error e) : ∃ cause, e = .domain cause := by
  -- an operator fails like one of its operands
  have hbinary : ∀ {a b : CellExpr} {f : Cell → Cell → Cell},
      (a.eval input aux p = .error e → ∃ cause, e = .domain cause) →
      (b.eval input aux p = .error e → ∃ cause, e = .domain cause) →
      (do return f (← a.eval input aux p) (← b.eval input aux p)) = Except.error e →
        ∃ cause, e = .domain cause := by
    intro a b f iha ihb h
    rcases Except.bind_eq_error.mp h with ha | ⟨v, -, h⟩
    · exact iha ha
    · rcases Except.bind_eq_error.mp h with hb | ⟨w, -, h⟩
      · exact ihb hb
      · cases h
  induction expr with
  | read offset =>
    obtain ⟨cause, -, hcause⟩ := Except.mapError_eq_error.mp h
    exact ⟨cause, hcause.symm⟩
  | aux offset =>
    cases aux with
    | none =>
      cases h
      exact ⟨_, rfl⟩
    | some grid =>
      obtain ⟨cause, -, hcause⟩ := Except.mapError_eq_error.mp h
      exact ⟨cause, hcause.symm⟩
  | const value => cases h
  | add a b iha ihb => exact hbinary iha ihb h
  | sub a b iha ihb => exact hbinary iha ihb h
  | max a b iha ihb => exact hbinary iha ihb h
  | min a b iha ihb => exact hbinary iha ihb h

/-- An iteration fails at a cell that does not exist, be it read or written. -/
theorem UpdateRule.structural_of_apply {p : Point} (h : (rule.apply aux p).error? input = some e) :
    e.Structural := by
  rcases cases_of_error?_apply h with hvalue | ⟨-, rfl⟩
  · obtain ⟨cause, rfl⟩ := CellExpr.exists_domain_of_eval hvalue
    exact .outside cause
  · exact .outside _

namespace Nest

variable {nest : Nest} {σ : Type}

/-- A run over loops that end adds only structural errors to those of the visits. -/
theorem structural_of_visit (hpos : nest.Forward) {f : Point → Stateful σ Unit} {s : σ}
    (hf : ∀ p t, (f p).error? t = some e → e.Structural)
    (h : (nest.visit f).error? s = some e) : e.Structural := by
  rcases error?_visit hpos h with ⟨rfl, -⟩ | ⟨q, hq⟩ | ⟨p, t, hp⟩
  · exact .division
  · rcases InverseMap.kind_of_apply hq with hkind | ⟨rfl, -⟩
    · exact .mismatch hkind
    · exact .division
  · exact hf p t hp

theorem structural_of_iterationPoints (hpos : nest.Forward) (h : nest.iterationPoints = .error e) :
    e.Structural := by
  rcases Stateful.inspect_eq_error.mp (iterationPoints_eq_inspect nest ▸ h) with hvisit | ⟨_, -, hlook⟩
  · exact structural_of_visit hpos (fun p t hp => by cases hp) hvisit
  · cases hlook

theorem structural_of_finalGrid (hpos : nest.Forward)
    (h : Observation.finalGrid rule aux nest input = .error e) : e.Structural := by
  rcases Stateful.inspect_eq_error.mp (finalGrid_eq_inspect nest input ▸ h) with hvisit | ⟨_, -, hlook⟩
  · exact structural_of_visit hpos (fun p t => UpdateRule.structural_of_apply) hvisit
  · cases hlook

/-- A check of a nest with positive strides finds a late source, or fails structurally. -/
theorem structural_of_verifyOrder (hpos : nest.Forward) {deps : DependencePattern}
    (h : nest.verifyOrder deps = .error e) :
    e.derivationKind? = some .dependenceOrder ∨ e.Structural := by
  rcases Except.bind_eq_error.mp h with hlog | ⟨log, -, hlate⟩
  · rcases kind_of_visitLog hpos hlog with hkind | ⟨rfl, -⟩
    · exact Or.inr (.mismatch hkind)
    · exact Or.inr .division
  · dsimp only at hlate
    split at hlate
    · cases hlate
      exact Or.inl rfl
    · cases hlate

end Nest

theorem Observation.structural_of_observe {observation : Observation} {nest : Nest}
    (hpos : nest.Forward) (h : observation.observe rule aux nest input = .error e) :
    e.Structural := by
  cases observation with
  | array =>
    rcases Except.bind_eq_error.mp h with hrun | ⟨g, -, h⟩
    · exact Nest.structural_of_finalGrid hpos hrun
    · cases h
  | cell point =>
    rcases Except.bind_eq_error.mp h with hrun | ⟨g, -, h⟩
    · exact Nest.structural_of_finalGrid hpos hrun
    · rcases Except.bind_eq_error.mp h with hget | ⟨v, -, h⟩
      · obtain ⟨cause, -, rfl⟩ := Except.mapError_eq_error.mp hget
        exact .outside cause
      · cases h
  | visitedSet =>
    rcases Except.bind_eq_error.mp h with hpoints | ⟨ps, -, h⟩
    · exact Nest.structural_of_iterationPoints hpos hpoints
    · cases h

theorem Oracle.structural_of_check {o : Oracle} {seed : Option UInt64}
    (hreference : o.reference.Forward) (htransformed : o.transformed.Forward)
    (h : o.check input aux seed = .error e) : e.Structural := by
  rw [check] at h
  split at h
  · cases h
    exact .domains _ _ _
  · rcases Except.bind_eq_error.mp h with hexpected | ⟨expected, -, h⟩
    · exact Observation.structural_of_observe hreference hexpected
    · rcases Except.bind_eq_error.mp h with hactual | ⟨actual, -, h⟩
      · exact Observation.structural_of_observe htransformed hactual
      · cases h

end AffineLoops
