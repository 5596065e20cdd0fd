import AffineLoops.Proofs.Case.Sound
import AffineLoops.Proofs.Oracle.Failure
/-!
# Exact accounting

A sweep over arbitrary cases, be they sound or not, ends with an error exactly if something in one of
them fails that the plan asks for and that is not a late source. Otherwise there is a verdict for
every case and every seed, and the report says no more and no less than these verdicts do.

## Main definitions

- `ExecutionPlan.seed`, `ExecutionPlan.runs`, `ExecutionPlan.Yields` — the comparisons of a sweep
- `ExecutionPlan.AbortsWith` — what ends a sweep
- `SweepReport.Accounts` — a report that says what the verdicts are
- `sweep_exact` — when a sweep ends with a report, and what the report says
-/

namespace AffineLoops

namespace ExecutionPlan

variable {plan : ExecutionPlan} {cases : List Case} {c : Case} {k : ℕ} {e : Error}

/-- The seed of the `k`-th input. -/
def seed (plan : ExecutionPlan) (k : ℕ) : UInt64 :=
  plan.baseSeed + UInt64.ofNat k

theorem toNat_seed (plan : ExecutionPlan) (k : ℕ) :
    (plan.seed k).toNat = (plan.baseSeed.toNat + k) % 2 ^ 64 := by
  rw [seed, UInt64.toNat_add, UInt64.toNat_ofNat', Nat.add_mod_mod]

/-- The comparisons of a sweep, case by case and seed by seed. -/
def runs (plan : ExecutionPlan) (cases : List Case) : List (Case × ℕ) :=
  if plan.checkEquivalence then cases ×ˢ List.range plan.seeds else []

theorem mem_runs : (c, k) ∈ plan.runs cases ↔ plan.checkEquivalence ∧ c ∈ cases ∧ k < plan.seeds := by
  rw [runs]
  split <;> simp [*]

theorem length_runs : (plan.runs cases).length =
    if plan.checkEquivalence then cases.length * plan.seeds else 0 := by
  rw [runs]
  split
  · rw [List.length_product, List.length_range]
  · rfl

/-- The oracle's verdict on the input with the `k`-th seed. -/
def Yields (plan : ExecutionPlan) (c : Case) (k : ℕ) (v : Verdict) : Prop :=
  ∃ input, c.inputGrid (plan.seed k) plan.maximum = .ok input ∧
    c.oracle.check input c.aux (some (plan.seed k)) = .ok v

/-- Something that a plan asks for in a case fails: the static check finds more than a late source,
or the oracle has no verdict on one of the inputs. -/
inductive AbortsWith (plan : ExecutionPlan) (c : Case) (e : Error) : Prop
  | verify (hcover : plan.verifyCoverage) (hverify : c.verify = .error e)
      (hkind : e.derivationKind? ≠ some .dependenceOrder)
  | check (hequiv : plan.checkEquivalence) (k : ℕ) (hk : k < plan.seeds) (input : Grid)
      (hinput : c.inputGrid (plan.seed k) plan.maximum = .ok input)
      (hcheck : c.oracle.check input c.aux (some (plan.seed k)) = .error e)

theorem verifyCase_eq_error : verifyCase c = .error e ↔
    c.verify = .error e ∧ e.derivationKind? ≠ some .dependenceOrder := by
  rw [verifyCase]
  cases c.verify with
  | ok => simp
  | error e' =>
    dsimp only
    split
    · next hkind =>
      constructor
      · intro h
        cases h
      · rintro ⟨h, hother⟩
        cases h
        exact absurd hkind hother
    · next hkind =>
      constructor
      · intro h
        cases h
        exact ⟨rfl, hkind⟩
      · exact fun h => h.1

/-- As long as there are values to draw, there is an input for every seed. -/
theorem checkSeed_eq_check (hmax : ¬plan.maximum < 0) (c : Case) (k : ℕ) :
    ∃ input, c.inputGrid (plan.seed k) plan.maximum = .ok input ∧
      plan.checkSeed c k = c.oracle.check input c.aux (some (plan.seed k)) := by
  obtain ⟨input, hinput, -⟩ := c.exists_inputGrid (plan.seed k) hmax
  refine ⟨input, hinput, ?_⟩
  change (liftM (c.inputGrid (plan.seed k) plan.maximum) >>= fun input =>
    c.check input (some (plan.seed k))) = _
  rw [Except.liftM_fault_eq_ok.mpr hinput]
  rfl

theorem yields_iff (hmax : ¬plan.maximum < 0) {v : Verdict} :
    plan.Yields c k v ↔ plan.checkSeed c k = .ok v := by
  obtain ⟨input, hinput, hcheck⟩ := checkSeed_eq_check hmax c k
  simp [Yields, hinput, hcheck]

/-- A mismatch has the name of the case and the seed of the input. -/
theorem Yields.label {m : MismatchReport} (h : plan.Yields c k (.mismatch m)) :
    m.name = c.name ∧ m.seed = some (plan.seed k) := by
  obtain ⟨input, -, hcheck⟩ := h
  obtain ⟨-, expected, actual, -, -, hjudge⟩ := Oracle.check_eq_ok_iff.mp hcheck
  exact Oracle.eq_of_judge_eq_mismatch hjudge

theorem abortsWith_of_runCase (hmax : ¬plan.maximum < 0) {report : SweepReport}
    (h : plan.runCase report c = .error e) : plan.AbortsWith c e := by
  rw [runCase_eq_bind] at h
  rcases Except.bind_eq_error.mp h with hverify | ⟨-, -, hruns⟩
  · split at hverify
    · next hcover =>
      obtain ⟨hverify, hkind⟩ := verifyCase_eq_error.mp hverify
      exact .verify hcover hverify hkind
    · cases hverify
  · rw [runSeeds] at hruns
    split at hruns
    · next hequiv =>
      obtain ⟨k, hk, report', hturn⟩ := Except.exists_of_foldlM_eq_error hruns
      obtain ⟨input, hinput, hcheck⟩ := checkSeed_eq_check hmax c k
      rcases Except.bind_eq_error.mp hturn with hfail | ⟨v, -, hadd⟩
      · exact .check hequiv k (List.mem_range.mp hk) input hinput (hcheck ▸ hfail)
      · cases hadd
    · cases hruns

theorem completes_of_runCase {report report' : SweepReport} (h : plan.runCase report c = .ok report') :
    plan.Completes c := by
  rw [runCase_eq_bind] at h
  obtain ⟨⟨⟩, hverify, hruns⟩ := Except.bind_eq_ok.mp h
  refine ⟨fun hcover => ?_, fun hequiv k hk => ?_⟩
  · rwa [if_pos hcover] at hverify
  · rw [runSeeds, if_pos hequiv] at hruns
    obtain ⟨s, s', hturn⟩ := Except.exists_of_foldlM_eq_ok hruns k (List.mem_range.mpr hk)
    obtain ⟨v, hv, -⟩ := Except.bind_eq_ok.mp hturn
    exact ⟨v, hv⟩

theorem Completes.not_abortsWith (h : plan.Completes c) (hmax : ¬plan.maximum < 0) :
    ¬plan.AbortsWith c e := by
  rintro (⟨hcover, hverify, hkind⟩ | ⟨hequiv, k, hk, input, hinput, hcheck⟩)
  · cases (verifyCase_eq_error.mpr ⟨hverify, hkind⟩).symm.trans (h.verify hcover)
  · obtain ⟨v, hv⟩ := h.check hequiv k hk
    obtain ⟨input', hinput', hv'⟩ := (yields_iff hmax).mpr hv
    cases hinput.symm.trans hinput'
    cases hcheck.symm.trans hv'

/-- What ends a sweep over nests with positive strides is a structural error. -/
theorem AbortsWith.structural (h : plan.AbortsWith c e) (hreference : c.reference.Forward)
    (htransformed : c.transformed.Forward) : e.Structural := by
  cases h with
  | verify _ hverify hkind =>
    exact (Nest.structural_of_verifyOrder htransformed hverify).resolve_left hkind
  | check _ k _ input _ hcheck => exact Oracle.structural_of_check hreference htransformed hcheck

theorem flatMap_outcomes (plan : ExecutionPlan) (cases : List Case) :
    cases.flatMap plan.outcomes = (plan.runs cases).map fun run => plan.verdict run.1 run.2 := by
  rw [runs]
  split
  · next hequiv =>
    have houtcomes : plan.outcomes = fun c => (List.range plan.seeds).map (plan.verdict c) :=
      funext fun c => if_pos hequiv
    rw [houtcomes]
    change _ = (cases.flatMap fun c => (List.range plan.seeds).map (Prod.mk c)).map _
    simp only [List.map_flatMap, List.map_map]
    rfl
  · next hequiv => simp [outcomes, hequiv]

theorem forall₂_yields (hmax : ¬plan.maximum < 0) (h : ∀ c ∈ cases, plan.Completes c) :
    List.Forall₂ (fun run v => plan.Yields run.1 run.2 v) (plan.runs cases)
      (cases.flatMap plan.outcomes) := by
  rw [flatMap_outcomes, List.forall₂_map_right_iff, List.forall₂_same]
  rintro ⟨c, k⟩ hrun
  obtain ⟨hequiv, hc, hk⟩ := mem_runs.mp hrun
  exact (yields_iff hmax).mpr (checkSeed_eq_ok ((h c hc).check hequiv k hk))

end ExecutionPlan

/-- The report of a sweep says what the verdicts on its comparisons are. -/
structure SweepReport.Accounts (report : SweepReport) (plan : ExecutionPlan) (cases : List Case) :
    Prop where
  /-- The mismatches are those among the verdicts, in the order of the comparisons. -/
  mismatches : ∃ vs, List.Forall₂ (fun run v => plan.Yields run.1 run.2 v) (plan.runs cases) vs ∧
    report.mismatches = vs.filterMap Verdict.report?
  /-- A mismatch is labelled with the case and with the seed, which wraps around. -/
  label : ∀ c k m, plan.Yields c k (.mismatch m) → m.name = c.name ∧
    ∃ s, m.seed = some s ∧ s.toNat = (plan.baseSeed.toNat + k) % 2 ^ 64
  failed : report.failed = report.mismatches.length
  total : report.passed + report.failed =
    if plan.checkEquivalence then cases.length * plan.seeds else 0
  success : report.isSuccess ↔ report.result = .ok report
  /-- A report that is no success becomes an error that names the case of the first mismatch. -/
  failure : ¬report.isSuccess → ∃ first rest, report.mismatches = first :: rest ∧
    report.result = .error (.runsDiffer report.failed (report.passed + report.failed) first.name)

theorem SweepReport.accounts_ofVerdicts {plan : ExecutionPlan} {cases : List Case} {vs : List Verdict}
    (h : List.Forall₂ (fun run v => plan.Yields run.1 run.2 v) (plan.runs cases) vs) :
    (ofVerdicts vs).Accounts plan cases := by
  have hfailed := failed_ofVerdicts vs
  have hsuccess : (ofVerdicts vs).isSuccess ↔ (ofVerdicts vs).mismatches = [] := by
    rw [isSuccess, beq_iff_eq, hfailed, List.length_eq_zero_iff]
  refine ⟨⟨vs, h, mismatches_ofVerdicts vs⟩, fun c k m hm => ?_, hfailed, ?_, ?_, fun hfail => ?_⟩
  · obtain ⟨hname, hseed⟩ := hm.label
    exact ⟨hname, plan.seed k, hseed, plan.toNat_seed k⟩
  · rw [total_ofVerdicts, ← h.length_eq, ExecutionPlan.length_runs]
  · rw [hsuccess, result]
    split
    · next hnil => simp [hnil]
    · next first rest hcons => simp [hcons]
  · obtain ⟨first, rest, hcons⟩ := List.exists_cons_of_ne_nil fun hnil => hfail (hsuccess.mpr hnil)
    exact ⟨first, rest, hcons, by rw [result, hcons]⟩

theorem completes_of_sweep {plan : ExecutionPlan} {cases : List Case} {report : SweepReport}
    (h : sweep cases plan = .ok report) : ¬plan.maximum < 0 ∧ ∀ c ∈ cases, plan.Completes c := by
  rw [sweep] at h
  split at h
  · cases h
  · next hmax =>
    refine ⟨hmax, fun c hc => ?_⟩
    obtain ⟨s, s', hrun⟩ := Except.exists_of_foldlM_eq_ok h c hc
    exact ExecutionPlan.completes_of_runCase hrun

/-- A sweep that ends with an error has nothing to draw from, or fails with the error of a case. -/
theorem abortsWith_of_sweep {plan : ExecutionPlan} {cases : List Case} {e : Error}
    (h : sweep cases plan = .error e) :
    (plan.maximum < 0 ∧ e = .domain (.emptyValueRange plan.maximum.toInt)) ∨
      ¬plan.maximum < 0 ∧ ∃ c ∈ cases, plan.AbortsWith c e := by
  rw [sweep] at h
  split at h
  · next hmax =>
    cases h
    exact Or.inl ⟨hmax, rfl⟩
  · next hmax =>
    obtain ⟨c, hc, report, hrun⟩ := Except.exists_of_foldlM_eq_error h
    exact Or.inr ⟨hmax, c, hc, ExecutionPlan.abortsWith_of_runCase hmax hrun⟩

/-- The accounting of a sweep is exact, for arbitrary cases with positive strides. The sweep ends with
an error exactly if there are no values to draw, a static check finds more than a late source, or the
oracle fails on an input, and every such error is structural. Otherwise its report accounts for the
verdict on every case and every seed. -/
theorem sweep_exact (cases : List Case) (plan : ExecutionPlan)
    (hforward : ∀ c ∈ cases, c.reference.Forward ∧ c.transformed.Forward) :
    ((∃ e, sweep cases plan = .error e) ↔
      plan.maximum < 0 ∨ ∃ c ∈ cases, ∃ e, plan.AbortsWith c e) ∧
    (∀ e, sweep cases plan = .error e → e.Structural) ∧
    ∀ report, sweep cases plan = .ok report → report.Accounts plan cases := by
  refine ⟨⟨?_, fun habort => ?_⟩, fun e he => ?_, fun report hreport => ?_⟩
  · rintro ⟨e, he⟩
    exact (abortsWith_of_sweep he).imp (·.1) fun ⟨_, c, hc, habort⟩ => ⟨c, hc, e, habort⟩
  · cases hsweep : sweep cases plan with
    | error e => exact ⟨e, rfl⟩
    | ok report =>
      obtain ⟨hmax, hcomplete⟩ := completes_of_sweep hsweep
      rcases habort with hneg | ⟨c, hc, e, habort⟩
      · exact absurd hneg hmax
      · exact absurd habort ((hcomplete c hc).not_abortsWith hmax)
  · rcases abortsWith_of_sweep he with ⟨-, rfl⟩ | ⟨-, c, hc, habort⟩
    · exact .outside _
    · exact habort.structural (hforward c hc).1 (hforward c hc).2
  · obtain ⟨hmax, hcomplete⟩ := completes_of_sweep hreport
    cases hreport.symm.trans (sweep_eq_ok hmax hcomplete)
    exact SweepReport.accounts_ofVerdicts (ExecutionPlan.forall₂_yields hmax hcomplete)

/-- A counting rule along one axis, over a nest that goes through the axis from its end. -/
def countdownCase : Case where
  name := "countdown"
  reference := .reference ⟨[1], [4]⟩
  transformed :=
    { Nest.reference ⟨[1], [4]⟩ with
      loops := [⟨loopVar 0, .const (-3), .const (-1), 1⟩]
      inverse := ⟨⟨1, 1, #v[#v[1]]⟩, -1⟩ }
  dependences := ⟨1, [[-1]]⟩
  rule := ⟨"count", .add (.read [-1]) (.const 1)⟩
  observation := .array
  arrayShape := ⟨[0], [4]⟩
  input := .zeros
  aux := none

/-- The nest that counts down is swept although its check finds a late source. Both of its runs
differ, the first of them with the greatest seed and the second one with seed zero. -/
theorem sweep_exact_countdown :
    (countdownCase.reference.Forward ∧ countdownCase.transformed.Forward) ∧
      countdownCase.verify = .error (.derivation (.dependenceOrder [1] [2])) ∧
        ∃ report, sweep [countdownCase] { seeds := 2, baseSeed := -1 } = .ok report ∧
          report.Accounts { seeds := 2, baseSeed := -1 } [countdownCase] ∧
            report.mismatches.map (·.seed) = [some 18446744073709551615, some 0] ∧
              report.result = .error (.runsDiffer 2 2 "countdown") := by
  have hreference : countdownCase.reference.Forward := Nest.reference_forward _
  have htransformed : countdownCase.transformed.Forward := by
    intro l hl
    rw [List.mem_singleton.mp hl]
    exact one_pos
  have hrun : (sweep [countdownCase] { seeds := 2, baseSeed := -1 }).map (fun report =>
      (report.mismatches.map (·.seed), report.result)) =
        .ok ([some 18446744073709551615, some 0], .error (.runsDiffer 2 2 "countdown")) := by
    decide +kernel
  obtain ⟨-, -, haccounts⟩ := sweep_exact [countdownCase] { seeds := 2, baseSeed := -1 }
    (List.forall_mem_singleton.mpr ⟨hreference, htransformed⟩)
  refine ⟨⟨hreference, htransformed⟩, by decide +kernel, ?_⟩
  cases hsweep : sweep [countdownCase] { seeds := 2, baseSeed := -1 } with
  | error e =>
    rw [hsweep] at hrun
    cases hrun
  | ok report =>
    rw [hsweep] at hrun
    obtain ⟨hseeds, hresult⟩ := Prod.mk.inj (Except.ok.inj hrun)
    exact ⟨report, rfl, haccounts report hsweep, hseeds, hresult⟩

end AffineLoops
