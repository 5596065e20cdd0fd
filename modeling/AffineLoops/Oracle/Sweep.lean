import AffineLoops.Case.Basic
/-!
# Sweeps

A sweep runs the oracle of every case on several inputs with consecutive seeds, after a static
check of the derived nest. A derived nest that visits a dependence source too late goes on to the
oracle, which can then show the mismatch; any other failure ends the sweep.

## Main definitions

- `ExecutionPlan` — how many inputs, from which seed, and which checks
- `SweepReport` — how many runs passed and failed, with the reports of the failed ones
- `sweep` — all cases under a plan
- `SweepReport.result` — the report, or an error if a run failed
-/

namespace AffineLoops

/-- How a sweep is run. -/
structure ExecutionPlan where
  /-- Number of inputs per case. -/
  seeds : Nat := 10
  /-- The seed of the first input; the others follow, modulo 2 ^ 64. -/
  baseSeed : UInt64 := 0
  /-- Random cells are drawn from zero up to this value. -/
  maximum : Cell := 10
  checkEquivalence : Bool := true
  /-- Whether coverage and order of the derived nests are checked. -/
  verifyCoverage : Bool := true
deriving DecidableEq

/-- The outcome of a sweep. -/
structure SweepReport where
  passed : Nat := 0
  failed : Nat := 0
  mismatches : List MismatchReport := []
deriving DecidableEq

namespace SweepReport

/-- No run differed. -/
def isSuccess (r : SweepReport) : Bool :=
  r.failed == 0

/-- Counts one verdict. -/
def add (r : SweepReport) : Verdict → SweepReport
  | .pass => { r with passed := r.passed + 1 }
  | .mismatch report =>
    { r with failed := r.failed + 1, mismatches := r.mismatches ++ [report] }

/-- The report itself, or an error that names the case of the first mismatch. -/
def result (r : SweepReport) : Except EquivalenceError SweepReport :=
  match r.mismatches with
  | [] => .ok r
  | first :: _ => .error (.runsDiffer r.failed (r.passed + r.failed) first.name)

end SweepReport

namespace ExecutionPlan

/-- The static check of a case, which a late dependence source does not fail. -/
def verifyCase (c : Case) : Except Error Unit :=
  match c.verify with
  | .error e => if e.derivationKind? = some .dependenceOrder then .ok () else .error e
  | .ok () => .ok ()

/-- The oracle's verdict on one case and the input with the `k`-th seed. -/
def checkSeed (plan : ExecutionPlan) (c : Case) (k : Nat) : Except Error Verdict := do
  let seed := plan.baseSeed + UInt64.ofNat k
  let input ← c.inputGrid seed plan.maximum
  c.check input (some seed)

/-- Runs one case and adds the outcome to the report. -/
def runCase (plan : ExecutionPlan) (report : SweepReport) (c : Case) :
    Except Error SweepReport := do
  if plan.verifyCoverage then verifyCase c
  if plan.checkEquivalence then
    (List.range plan.seeds).foldlM (fun report k => return report.add (← plan.checkSeed c k)) report
  else return report

end ExecutionPlan

/-- Runs every case on as many random inputs as the plan asks for. -/
def sweep (cases : List Case) (plan : ExecutionPlan) : Except Error SweepReport :=
  if plan.maximum < 0 then .error (.domain (.emptyValueRange plan.maximum.toInt))
  else cases.foldlM plan.runCase {}

end AffineLoops
