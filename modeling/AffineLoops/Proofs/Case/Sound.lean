import AffineLoops.Proofs.Case.Build
import AffineLoops.Proofs.Dependence.Legality
import AffineLoops.Proofs.Oracle.Equivalence
import AffineLoops.Proofs.Oracle.Sweep
import AffineLoops.Proofs.Oracle.Verdict
import AffineLoops.Proofs.Rule.Run
/-!
# Sound cases

A case is sound if its iterations stay in the arrays and the declared dependences are those of its
rule. Both of its nests then run to the end on every input of the right shape, the static check finds
nothing but late sources, and where the transform respects the dependences the oracle never finds a
difference.

## Main definitions

- `CaseSpec.Sound`, `Case.Sound`, `CaseSpec.Sound.of_build` — sound cases, before and after they are
  built
- `Case.Sound.exists_check` — the verdict of the oracle
- `Case.Sound.completes` — a sweep does not fail in a sound case
-/

namespace AffineLoops

variable {rule : UpdateRule} {aux : Option Grid} {nest : Nest} {input : Grid}

theorem Nest.exists_finalGrid (hpos : nest.Forward) (hdef : nest.Defined) (hinv : nest.Inverts)
    (hsafe : ∀ p ∈ nest.iterations, rule.Safe input.shape aux p) :
    ∃ g, Observation.finalGrid rule aux nest input = .ok g ∧ g.shape = input.shape := by
  obtain ⟨g, hrun, hshape⟩ := UpdateRule.exists_run hsafe
  rw [← final_visit_apply hpos hdef hinv] at hrun
  exact ⟨g, finalGrid_eq_ok.mpr hrun, hshape⟩

theorem Nest.exists_observe (hpos : nest.Forward) (hdef : nest.Defined) (hinv : nest.Inverts)
    (hsafe : ∀ p ∈ nest.iterations, rule.Safe input.shape aux p) {observation : Observation}
    (hobserved : ∀ p, observation = .cell p → input.shape.contains p) :
    ∃ seen, observation.observe rule aux nest input = .ok seen := by
  obtain ⟨g, hg, hshape⟩ := exists_finalGrid hpos hdef hinv hsafe
  cases observation with
  | array => exact ⟨_, Except.bind_eq_ok.mpr ⟨g, hg, rfl⟩⟩
  | cell p =>
    obtain ⟨v, hv⟩ := Grid.exists_get (g := g) (hshape ▸ hobserved p rfl)
    exact ⟨_, Except.bind_eq_ok.mpr ⟨g, hg,
      Except.bind_eq_ok.mpr ⟨v, Except.liftM_domain_eq_ok.mpr hv, rfl⟩⟩⟩
  | visitedSet =>
    exact ⟨_, Except.bind_eq_ok.mpr ⟨_, iterationPoints_eq_ok hpos hdef hinv, rfl⟩⟩

theorem Case.exists_inputGrid (c : Case) (seed : UInt64) {maximum : Cell} (hmax : ¬maximum < 0) :
    ∃ g, c.inputGrid seed maximum = .ok g ∧ g.shape = c.arrayShape := by
  rw [inputGrid]
  cases c.input with
  | random =>
    obtain ⟨g, hg, hshape, -⟩ := Grid.exists_random c.arrayShape seed hmax
    exact ⟨g, hg, hshape⟩
  | zeros => exact ⟨_, rfl, rfl⟩

/-- The nests of the case are those of the domain and the transform, no iteration leaves the arrays,
and the declared dependences are those of the rule. -/
structure Case.Sound (c : Case) (d : Domain) (t : Transform) : Prop where
  reference : c.reference = (Nest.reference d).withBody c.rule
  realizes : c.transformed.Realizes d t
  arrayShape : c.arrayShape.WellFormed
  safe : ∀ p, d.contains p → c.rule.Safe c.arrayShape c.aux p
  observed : ∀ p, c.observation = .cell p → c.arrayShape.contains p
  dependences : c.rule.dependencePattern d.dim = .ok c.dependences
  declared : ∃ offsets, DependencePattern.ofOffsets d.dim offsets = .ok c.dependences

namespace Case.Sound

variable {c : Case} {d : Domain} {t : Transform}

theorem exists_observe_reference (h : c.Sound d t) (hinput : input.shape = c.arrayShape) :
    ∃ seen, c.observation.observe c.rule c.aux (.reference d) input = .ok seen := by
  refine Nest.exists_observe (Nest.reference_forward d) (Nest.reference_defined d)
    (Nest.reference_inverts h.realizes.wellFormed) (fun p hp => ?_) (hinput ▸ h.observed)
  rw [Nest.reference_iterations h.realizes.wellFormed, Domain.mem_points h.realizes.wellFormed] at hp
  exact hinput ▸ h.safe p hp

theorem exists_observe_transformed (h : c.Sound d t) (hinput : input.shape = c.arrayShape) :
    ∃ seen, c.observation.observe c.rule c.aux c.transformed input = .ok seen := by
  refine Nest.exists_observe h.realizes.forward h.realizes.defined h.realizes.inverts
    (fun p hp => ?_) (hinput ▸ h.observed)
  exact hinput ▸ h.safe p ((h.realizes.enumerates.mem p).mp hp)

theorem verifyOrder_of_isRespectedBy (h : c.Sound d t) (hresp : c.dependences.isRespectedBy t) :
    c.transformed.verifyOrder c.dependences = .ok () := by
  obtain ⟨offsets, hdeclared⟩ := h.declared
  obtain ⟨hdim, -, hoffsets⟩ := DependencePattern.ofOffsets_eq_ok hdeclared
  exact h.realizes.verifyOrder_of_isRespectedBy hdim (fun o ho => (hoffsets o ho).1) hresp

/-- The oracle has a verdict on every input of the right shape. It is a pass if the transform respects
the dependences, and otherwise a mismatch has the name of the case. -/
theorem exists_check (h : c.Sound d t) (hinput : input.shape = c.arrayShape) (seed : Option UInt64) :
    ∃ v, c.check input seed = .ok v ∧
      (∀ report, v = .mismatch report → report.name = c.name ∧ report.seed = seed) ∧
        (c.dependences.isRespectedBy t → v = .pass) := by
  obtain ⟨expected, hexpected⟩ := h.exists_observe_reference hinput
  obtain ⟨actual, hactual⟩ := h.exists_observe_transformed hinput
  have hdomain : c.oracle.reference.domain = c.oracle.transformed.domain := by
    show c.reference.domain = c.transformed.domain
    rw [h.reference, h.realizes.domain]
    rfl
  have hreference : c.observation.observe c.rule c.aux c.reference input = .ok expected := by
    rw [h.reference]
    exact hexpected
  refine ⟨_, Oracle.check_eq_ok_iff.mpr ⟨hdomain, _, _, hreference, hactual, rfl⟩,
    fun report => Oracle.eq_of_judge_eq_mismatch, fun hresp => ?_⟩
  -- what is observed of the reference is observed of every nest that keeps the dependences
  have hsame : c.observation.observe c.rule c.aux c.transformed input = .ok expected := by
    refine Observation.observe_eq_ok h.realizes.forward (h.realizes.domain ▸ h.realizes.wellFormed)
      (h.realizes.domain ▸ h.dependences) (h.verifyOrder_of_isRespectedBy hresp)
      (hinput ▸ h.arrayShape) ?_
    rw [h.realizes.domain]
    exact hexpected
  cases hsame.symm.trans hactual
  exact Oracle.judge_self

theorem verifyCase_eq_ok (h : c.Sound d t) : ExecutionPlan.verifyCase c = .ok () := by
  rw [ExecutionPlan.verifyCase, verify]
  cases hcheck : c.transformed.verifyOrder c.dependences with
  | ok => rfl
  | error e =>
    -- the coverage is complete, so this is a late source, which is left to the oracle
    exact if_pos (h.realizes.verifyOrder_eq_error hcheck)

theorem exists_checkSeed (h : c.Sound d t) {plan : ExecutionPlan} (hmax : ¬plan.maximum < 0) (k : ℕ) :
    ∃ v, plan.checkSeed c k = .ok v ∧
      (∀ report, v = .mismatch report → report.name = c.name) ∧
        (c.dependences.isRespectedBy t → v = .pass) := by
  obtain ⟨g, hg, hshape⟩ := c.exists_inputGrid (plan.baseSeed + UInt64.ofNat k) hmax
  obtain ⟨v, hv, hname, hpass⟩ := h.exists_check hshape (some (plan.baseSeed + UInt64.ofNat k))
  exact ⟨v, Except.bind_eq_ok.mpr ⟨g, Except.liftM_fault_eq_ok.mpr hg, hv⟩,
    fun report hreport => (hname report hreport).1, hpass⟩

theorem completes (h : c.Sound d t) {plan : ExecutionPlan} (hmax : ¬plan.maximum < 0) :
    plan.Completes c := by
  refine ⟨fun _ => h.verifyCase_eq_ok, fun _ k _ => ?_⟩
  obtain ⟨v, hv, -⟩ := h.exists_checkSeed hmax k
  exact ⟨v, hv⟩

end Case.Sound

/-- A specification that becomes a sound case if it is built. That its iterations write inside the
array may depend on where they read. -/
structure CaseSpec.Sound (spec : CaseSpec) : Prop where
  domain : spec.domain.WellFormed
  arrayShape : spec.arrayShape.WellFormed
  transform : spec.transform.Proper
  dependences : spec.rule.dependencePattern spec.domain.dim = .ok spec.dependences
  declared : ∃ offsets, DependencePattern.ofOffsets spec.domain.dim offsets = .ok spec.dependences
  write : (∀ o ∈ spec.rule.reads, ∀ p, spec.domain.contains p →
    spec.arrayShape.contains (p.shift o)) → ∀ p, spec.domain.contains p → spec.arrayShape.contains p
  auxReads : ∀ p, spec.domain.contains p → ∀ o ∈ spec.rule.expr.auxReads,
    ∃ a, spec.aux = some a ∧ a.shape.contains (p.shift o)

theorem CaseSpec.Sound.of_build {spec : CaseSpec} {c : Case} (h : spec.Sound)
    (hc : Case.build spec = .ok c) : c.Sound spec.domain spec.transform := by
  obtain ⟨hreads, hobserved, -, nest, hnest, rfl⟩ := Case.build_eq_ok_iff.mp hc
  have hreads : ∀ o ∈ spec.rule.reads, ∀ p, spec.domain.contains p →
      spec.arrayShape.contains (p.shift o) := fun o ho =>
    ((checkRead_eq_ok_iff h.domain).mp (hreads o ho)).2
  exact {
    reference := rfl
    realizes := (Nest.realizes_of_derive h.domain h.transform hnest).withBody spec.rule
    arrayShape := h.arrayShape
    safe := fun p hp => ⟨h.write hreads p hp, fun o ho => hreads o ho p hp, h.auxReads p hp⟩
    observed := checkObservation_eq_ok_iff.mp hobserved
    dependences := h.dependences
    declared := h.declared }

end AffineLoops
