import AffineLoops.Proofs.Grid.Comparison
import AffineLoops.Proofs.Nest.Run
import AffineLoops.Proofs.Oracle.Equivalence
/-!
# Verdicts of the oracle

The oracle has a verdict if both nests cover one domain and both runs succeed. A run keeps the shape of
the grid, so what two runs leave behind can always be compared cell by cell: the verdict is a pass if
the contents of all cells agree, and otherwise a report that lists the cells in which they differ.

## Main definitions

- `Oracle.check_eq_ok_iff` — when there is a verdict
- `Nest.keeps_of_finalGrid`, `Nest.Keeps.comparable` — what the runs leave as it was
- `Oracle.check_array_exact` — the verdict on two arrays
-/

namespace AffineLoops

variable {aux : Option Grid} {input g g' : Grid}

/-- The grid after a run differs from the input in the cells of the iterations alone. -/
theorem Nest.keeps_of_finalGrid {rule : UpdateRule} {nest : Nest} (hpos : nest.Forward)
    (hshape : input.shape.WellFormed) (h : Observation.finalGrid rule aux nest input = .ok g) :
    nest.Keeps nest.tuples input g :=
  keeps_of_final hpos hshape (finalGrid_eq_ok.mp h)

/-- What two runs on one input leave behind can be compared cell by cell. -/
theorem Nest.Keeps.comparable {nest nest' : Nest} {qs qs' : List Point} (h : nest.Keeps qs input g)
    (h' : nest'.Keeps qs' input g') (hshape : input.shape.WellFormed) (hwf : input.WellFormed) :
    g.Comparable g' where
  domain := h.shape_eq ▸ hshape
  left := h.wellFormed hwf
  right := h'.wellFormed hwf
  shape_eq := h'.shape_eq.trans h.shape_eq.symm

namespace Oracle

variable {o : Oracle} {seed : Option UInt64} {expected actual : Observed}

theorem check_eq_ok_iff {v : Verdict} : o.check input aux seed = .ok v ↔
    o.reference.domain = o.transformed.domain ∧ ∃ expected actual,
      o.observation.observe o.rule aux o.reference input = .ok expected ∧
      o.observation.observe o.rule aux o.transformed input = .ok actual ∧
      o.judge seed expected actual = v := by
  rw [check]
  split
  · next hne =>
    refine iff_of_false (fun h => ?_) fun h => hne h.1
    cases h
  · next heq =>
    rw [and_iff_right (not_not.mp heq)]
    simp only [Except.bind_eq_ok]
    constructor
    · rintro ⟨expected, hexpected, actual, hactual, hv⟩
      exact ⟨expected, actual, hexpected, hactual, Except.ok.inj hv⟩
    · rintro ⟨expected, actual, hexpected, hactual, rfl⟩
      exact ⟨expected, hexpected, actual, hactual, rfl⟩

theorem judge_self : o.judge seed expected expected = .pass :=
  if_pos (decide_eq_true rfl)

/-- A mismatch has the name of the oracle and the seed of the input. -/
theorem eq_of_judge_eq_mismatch {report : MismatchReport}
    (h : o.judge seed expected actual = .mismatch report) :
    report.name = o.name ∧ report.seed = seed := by
  rw [judge] at h
  split at h
  · cases h
  · cases h
    exact ⟨rfl, rfl⟩

theorem observe_array {nest : Nest} (hobs : o.observation = .array)
    (h : Observation.finalGrid o.rule aux nest input = .ok g) :
    o.observation.observe o.rule aux nest input = .ok (.array g) := by
  rw [hobs]
  exact Except.bind_eq_ok.mpr ⟨g, h, rfl⟩

theorem judge_array : o.judge seed (.array g) (.array g') =
    if g = g' then .pass
    else .mismatch ⟨o.name, seed, .array g, .array g', (g.diff? g').getD []⟩ := by
  simp only [judge, Observed.agree, Observed.array.injEq, decide_eq_true_eq]
  rfl

/-- The verdict on two runs that succeed, when whole arrays are observed. It is a pass exactly if the
two grids have the same content in every cell of the input's shape. Otherwise it is a mismatch with both
grids, whose list of differing cells is not empty, is strictly increasing, has an entry for a point
exactly if the contents differ there, and gives the expected content first and the actual one second. -/
theorem check_array_exact (hobs : o.observation = .array)
    (hdomain : o.reference.domain = o.transformed.domain)
    (hreference : ∀ l ∈ o.reference.loops, 0 < l.step)
    (htransformed : ∀ l ∈ o.transformed.loops, 0 < l.step) (hshape : input.shape.WellFormed)
    (hwf : input.WellFormed) (hg : Observation.finalGrid o.rule aux o.reference input = .ok g)
    (hg' : Observation.finalGrid o.rule aux o.transformed input = .ok g') (seed : Option UInt64) :
    (o.check input aux seed = .ok .pass ↔ ∀ p, input.shape.contains p → g.get p = g'.get p) ∧
    ((¬∀ p, input.shape.contains p → g.get p = g'.get p) →
      ∃ diffs, o.check input aux seed =
          .ok (.mismatch ⟨o.name, seed, .array g, .array g', diffs⟩) ∧
        diffs ≠ [] ∧ (diffs.map CellDiff.point).Pairwise (· < ·) ∧
        (∀ p, (∃ c ∈ diffs, c.point = p) ↔ g.get p ≠ g'.get p) ∧
        ∀ c ∈ diffs, g.get c.point = .ok c.left ∧ g'.get c.point = .ok c.right) := by
  have hkeeps := Nest.keeps_of_finalGrid hreference hshape hg
  have hkeeps' := Nest.keeps_of_finalGrid htransformed hshape hg'
  have hcomp := hkeeps.comparable hkeeps' hshape hwf
  obtain ⟨diffs, hdiffs⟩ := hcomp.exists_diff?
  have hverdict : o.check input aux seed = .ok (o.judge seed (.array g) (.array g')) :=
    check_eq_ok_iff.mpr ⟨hdomain, _, _, observe_array hobs hg, observe_array hobs hg', rfl⟩
  rw [← hkeeps.shape_eq, ← hcomp.eq_iff, hverdict, judge_array, hdiffs, Option.getD_some]
  constructor
  · split
    · next heq => simp [heq]
    · next hne => simp [hne]
  · intro hne
    rw [if_neg hne]
    refine ⟨diffs, rfl, hcomp.ne_nil hdiffs hne, hcomp.pairwise hdiffs,
      fun p => hcomp.exists_mem_iff hdiffs, fun c hc => ?_⟩
    obtain ⟨hl, hr, -⟩ := (hcomp.mem_iff hdiffs).mp hc
    exact ⟨hl, hr⟩

/-- The cells of a row take the values of the ones before them, from the first one on and from the last
one on. -/
def reversedOracle : Oracle where
  name := "previous"
  reference := .reference ⟨[1], [4]⟩
  transformed :=
    { Nest.reference ⟨[1], [4]⟩ with
      loops := [Nest.referenceLoop 0 (-3) 0]
      inverse := ⟨.identity 1, -1⟩ }
  rule := .stencil "previous" [[-1]]
  observation := .array

/-- The reference spreads the first value over the row and the other nest moves all values on, so they
differ from the third cell on. -/
theorem check_array_exact_reversed : ∃ g g' diffs,
    reversedOracle.check ⟨⟨[0], [4]⟩, #[1, 2, 3, 4]⟩ none none =
        .ok (.mismatch ⟨"previous", none, .array g, .array g', diffs⟩) ∧
      (∃ c ∈ diffs, c.point = [3]) ∧ (¬∃ c ∈ diffs, c.point = [1]) ∧
        ∀ c ∈ diffs, g.get c.point = .ok c.left ∧ g'.get c.point = .ok c.right := by
  have hg : Observation.finalGrid reversedOracle.rule none reversedOracle.reference
      ⟨⟨[0], [4]⟩, #[1, 2, 3, 4]⟩ = .ok ⟨⟨[0], [4]⟩, #[1, 1, 1, 1]⟩ := by decide +kernel
  have hg' : Observation.finalGrid reversedOracle.rule none reversedOracle.transformed
      ⟨⟨[0], [4]⟩, #[1, 2, 3, 4]⟩ = .ok ⟨⟨[0], [4]⟩, #[1, 1, 2, 3]⟩ := by decide +kernel
  have hshape : Domain.WellFormed ⟨[0], [4]⟩ := .cons (by decide) .nil
  obtain ⟨-, hmismatch⟩ := check_array_exact rfl rfl
    (by decide : ∀ l ∈ reversedOracle.reference.loops, 0 < l.step)
    (by decide : ∀ l ∈ reversedOracle.transformed.loops, 0 < l.step) hshape (by decide) hg hg' none
  obtain ⟨diffs, hcheck, -, -, hpoint, hvalues⟩ := hmismatch fun hget =>
    absurd (hget [3] (by decide)) (by decide +kernel)
  exact ⟨_, _, diffs, hcheck, (hpoint [3]).mpr (by decide +kernel),
    fun hex => (hpoint [1]).mp hex (by decide +kernel), hvalues⟩

end Oracle

end AffineLoops
