import AffineLoops.Oracle.Observation
/-!
# The equivalence oracle

The oracle runs a reference nest and a transformed one on the same input with the same rule and
compares the observations. A disagreement is a verdict that keeps both outcomes; only a run that
fails, or nests over different domains, are errors.

## Main definitions

- `MismatchReport`, `Verdict` — the outcome of a comparison
- `Oracle` — two nests, a rule and an observation
- `Oracle.check` — the comparison on one input
-/

namespace AffineLoops

/-- Both outcomes of a failed comparison. -/
structure MismatchReport where
  name : String
  /-- The seed of the input, if it was drawn from one. -/
  seed : Option UInt64
  expected : Observed
  actual : Observed
  /-- The cells that differ, when whole arrays are compared. -/
  differingCells : List CellDiff
deriving DecidableEq

/-- The outcome of one comparison. -/
inductive Verdict where
  | pass
  | mismatch (report : MismatchReport)
deriving DecidableEq

/-- The observations of two runs are equal. -/
def Observed.agree (a b : Observed) : Bool :=
  decide (a = b)

/-- The cells at which two observed arrays of one shape differ; none for other observations. -/
def Observed.differingCells : Observed → Observed → List CellDiff
  | .array g, .array h => (g.diff? h).getD []
  | _, _ => []

/-- A reference and a transformed nest that should be equivalent for a rule. -/
structure Oracle where
  name : String
  /-- The nest that is taken to be right. -/
  reference : Nest
  /-- The nest that is compared with it. -/
  transformed : Nest
  /-- What both nests execute at every iteration. -/
  rule : UpdateRule
  observation : Observation

namespace Oracle

/-- The verdict on two observations. -/
def judge (o : Oracle) (seed : Option UInt64) (expected actual : Observed) : Verdict :=
  if expected.agree actual then .pass
  else .mismatch ⟨o.name, seed, expected, actual, expected.differingCells actual⟩

/-- Runs both nests on copies of an input, which may have a seed, and compares what they give. -/
def check (o : Oracle) (input : Grid) (aux : Option Grid) (seed : Option UInt64) :
    Except Error Verdict := do
  if o.reference.domain ≠ o.transformed.domain then
    throw (.equivalence (.domainsDiffer o.reference.domain o.transformed.domain o.name))
  let expected ← o.observation.observe o.rule aux o.reference input
  let actual ← o.observation.observe o.rule aux o.transformed input
  return o.judge seed expected actual

end Oracle

end AffineLoops
