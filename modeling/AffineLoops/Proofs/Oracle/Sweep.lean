import AffineLoops.Oracle.Sweep
import AffineLoops.Proofs.Except
/-!
# Accounting of sweeps

A sweep in which nothing fails has one verdict for every case and every seed. Its report keeps the
mismatches among them, in this order, and counts the others.

## Main definitions

- `ExecutionPlan.Completes` — nothing fails in a case
- `ExecutionPlan.outcomes` — the verdicts on a case
- `ExecutionPlan.runCase_eq_bind` — the two parts of what is done with a case
- `SweepReport.mismatches_ofVerdicts`, `SweepReport.total_ofVerdicts` — what a report says
- `sweep_eq_ok`, `exists_of_mem_mismatches` — the report of a sweep and its mismatches
-/

namespace AffineLoops

/-- The report of a verdict, unless it is a pass. -/
def Verdict.report? : Verdict → Option MismatchReport
  | .pass => none
  | .mismatch report => some report

namespace SweepReport

/-- The report on some verdicts. -/
def ofVerdicts (vs : List Verdict) : SweepReport :=
  vs.foldl add {}

theorem foldl_add (r : SweepReport) (vs : List Verdict) :
    (vs.foldl add r).mismatches = r.mismatches ++ vs.filterMap Verdict.report? ∧
      (vs.foldl add r).failed = r.failed + (vs.filterMap Verdict.report?).length ∧
        (vs.foldl add r).passed + (vs.foldl add r).failed = r.passed + r.failed + vs.length := by
  induction vs generalizing r with
  | nil => simp
  | cons v vs ih =>
    obtain ⟨hmismatches, hfailed, htotal⟩ := ih (r.add v)
    rw [List.foldl_cons, hmismatches, htotal, hfailed]
    cases v with
    | pass =>
      refine ⟨rfl, rfl, ?_⟩
      simp only [add, List.length_cons]
      omega
    | mismatch report =>
      have hcons : (Verdict.mismatch report :: vs).filterMap Verdict.report? =
          report :: vs.filterMap Verdict.report? := rfl
      rw [hcons]
      simp only [add, List.length_cons, List.append_assoc, List.singleton_append, true_and]
      omega

theorem mismatches_ofVerdicts (vs : List Verdict) :
    (ofVerdicts vs).mismatches = vs.filterMap Verdict.report? :=
  (foldl_add {} vs).1

theorem failed_ofVerdicts (vs : List Verdict) :
    (ofVerdicts vs).failed = (ofVerdicts vs).mismatches.length := by
  rw [mismatches_ofVerdicts, ofVerdicts, (foldl_add {} vs).2.1]
  exact Nat.zero_add _

theorem total_ofVerdicts (vs : List Verdict) :
    (ofVerdicts vs).passed + (ofVerdicts vs).failed = vs.length := by
  rw [ofVerdicts, (foldl_add {} vs).2.2]
  exact Nat.zero_add _

end SweepReport

namespace ExecutionPlan

variable {plan : ExecutionPlan} {c : Case}

/-- The verdict on the input with the `k`-th seed, if there is one. -/
def verdict (plan : ExecutionPlan) (c : Case) (k : ℕ) : Verdict :=
  (plan.checkSeed c k).toOption.getD .pass

/-- The verdicts on a case that a plan asks for. -/
def outcomes (plan : ExecutionPlan) (c : Case) : List Verdict :=
  if plan.checkEquivalence then (List.range plan.seeds).map (plan.verdict c) else []

/-- Nothing that a plan does with a case fails. -/
structure Completes (plan : ExecutionPlan) (c : Case) : Prop where
  verify : plan.verifyCoverage → verifyCase c = .ok ()
  check : plan.checkEquivalence → ∀ k < plan.seeds, ∃ v, plan.checkSeed c k = .ok v

theorem checkSeed_eq_ok {k : ℕ} (h : ∃ v, plan.checkSeed c k = .ok v) :
    plan.checkSeed c k = .ok (plan.verdict c k) := by
  obtain ⟨v, hv⟩ := h
  rw [verdict, hv]
  rfl

/-- The comparisons on a case, added to a report. -/
def runSeeds (plan : ExecutionPlan) (report : SweepReport) (c : Case) : Except Error SweepReport :=
  if plan.checkEquivalence then
    (List.range plan.seeds).foldlM (fun report k => return report.add (← plan.checkSeed c k)) report
  else return report

/-- The static check comes first, and the comparisons follow unless it fails. -/
theorem runCase_eq_bind (report : SweepReport) : plan.runCase report c =
    (if plan.verifyCoverage then verifyCase c else .ok ()) >>= fun _ => plan.runSeeds report c := by
  rw [runCase]
  split <;> rfl

/-- The runs of a case add its verdicts to the report. -/
theorem runCase_eq_ok (h : plan.Completes c) (report : SweepReport) :
    plan.runCase report c = .ok ((plan.outcomes c).foldl SweepReport.add report) := by
  have hverify : (if plan.verifyCoverage then verifyCase c else .ok ()) = Except.ok () := by
    split
    · next hcover => exact h.verify hcover
    · rfl
  rw [runCase_eq_bind, hverify, Except.bind_ok, runSeeds, outcomes]
  split
  · next hequiv =>
    rw [List.foldl_map]
    refine Except.foldlM_eq_ok (fun report k hk => ?_) report
    rw [checkSeed_eq_ok (h.check hequiv k (List.mem_range.mp hk))]
    rfl
  · rfl

end ExecutionPlan

/-- A sweep in which nothing fails reports on the verdicts, case by case and seed by seed. -/
theorem sweep_eq_ok {plan : ExecutionPlan} {cases : List Case} (hmax : ¬plan.maximum < 0)
    (h : ∀ c ∈ cases, plan.Completes c) :
    sweep cases plan = .ok (.ofVerdicts (cases.flatMap plan.outcomes)) := by
  rw [sweep, if_neg hmax, SweepReport.ofVerdicts, List.foldl_flatMap]
  exact Except.foldlM_eq_ok (fun report c hc => ExecutionPlan.runCase_eq_ok (h c hc) report) {}

/-- A mismatch in the report is the verdict on one case and one seed. -/
theorem exists_of_mem_mismatches {plan : ExecutionPlan} {cases : List Case} {m : MismatchReport}
    (h : ∀ c ∈ cases, plan.Completes c)
    (hm : m ∈ (SweepReport.ofVerdicts (cases.flatMap plan.outcomes)).mismatches) :
    ∃ c ∈ cases, ∃ k < plan.seeds, plan.checkSeed c k = .ok (.mismatch m) := by
  rw [SweepReport.mismatches_ofVerdicts, List.mem_filterMap] at hm
  obtain ⟨v, hv, hreport⟩ := hm
  obtain ⟨c, hc, hv⟩ := List.mem_flatMap.mp hv
  rw [ExecutionPlan.outcomes] at hv
  split at hv
  · next hequiv =>
    obtain ⟨k, hk, rfl⟩ := List.mem_map.mp hv
    have hk := List.mem_range.mp hk
    refine ⟨c, hc, k, hk, ?_⟩
    rw [ExecutionPlan.checkSeed_eq_ok ((h c hc).check hequiv k hk)]
    cases hverdict : plan.verdict c k with
    | pass =>
      rw [hverdict] at hreport
      cases hreport
    | mismatch report =>
      rw [hverdict] at hreport
      cases hreport
      rfl
  · cases hv

end AffineLoops
