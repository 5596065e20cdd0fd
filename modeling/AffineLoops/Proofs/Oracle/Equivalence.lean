import AffineLoops.Oracle.Check
import AffineLoops.Proofs.Dependence.Pattern
import AffineLoops.Proofs.Nest.Coverage
import AffineLoops.Proofs.Nest.Reference
import AffineLoops.Proofs.Point
import AffineLoops.Proofs.Rule.Locality
/-!
# The order check certifies equivalence

If one iteration reads the cell of another, the pattern of the rule makes the later one of the two
depend on the earlier one. A nest that passes the order check therefore puts these pairs in the same
order as the reference nest does, and all other pairs of iterations commute. So both nests leave the
same grid behind, or neither run succeeds.

## Main definitions

- `DependencePattern.depends_of_conflicts` — conflicts are dependences
- `Nest.pairwise_iterations` — a checked nest puts conflicting iterations in their order
- `Observation.observe_eq_ok` — what the reference shows, a checked nest shows as well
- `Oracle.check_of_verifyOrder` — the verdict on a checked nest
-/

namespace AffineLoops

variable {rule : UpdateRule} {deps : DependencePattern} {aux : Option Grid}

/-- The iteration `p` depends on the earlier iteration `q`. -/
def DependencePattern.Depends (deps : DependencePattern) (p q : Point) : Prop :=
  q < p ∧ ∃ o ∈ deps.offsets, p.shift o = q

/-- A read between different iterations is a dependence, or an opposite one. -/
theorem DependencePattern.depends_of_reads {n : ℕ}
    (hreads : ∀ o ∈ rule.reads, o.length = n ∧ deps.Covers o) {p q : Point} (hp : p.length = n)
    (hne : p ≠ q) (h : rule.Reads p q) : deps.Depends p q ∨ deps.Depends q p := by
  obtain ⟨o, ho, rfl⟩ := h
  obtain ⟨hlen, hcovers⟩ := hreads o ho
  have hlen' : o.length = p.length := hlen.trans hp.symm
  rcases hcovers with hzero | ⟨hneg, hmem⟩ | ⟨hpos, hmem⟩
  · exact absurd (Point.shift_eq_self hlen' hzero).symm hne
  · exact Or.inl ⟨Point.shift_lt hlen' hneg, o, hmem, rfl⟩
  · exact Or.inr ⟨Point.lt_shift hlen' hpos, o.neg, hmem, Point.shift_neg hlen'⟩

/-- Of two conflicting iterations the later one depends on the earlier one. -/
theorem DependencePattern.depends_of_conflicts {n : ℕ}
    (hreads : ∀ o ∈ rule.reads, o.length = n ∧ deps.Covers o) {p q : Point} (hp : p.length = n)
    (hq : q.length = n) (hne : p ≠ q) (h : rule.Conflicts p q) :
    deps.Depends p q ∨ deps.Depends q p := by
  rcases h with h | h
  · exact depends_of_reads hreads hp hne h
  · exact (depends_of_reads hreads hq hne.symm h).symm

namespace Nest

variable {t : Nest} {d : Domain}

/-- A nest in which every source comes before its sinks puts conflicting iterations in the
lexicographic order. -/
theorem pairwise_iterations {log : VisitLog} {ps : List Point} (hrecords : log.Records d ps)
    (horder : ∀ sink, d.contains sink → ∀ o ∈ deps.offsets,
      ∀ i j, log.time? sink = some i → log.time? (sink.shift o) = some j → j < i)
    (hreads : ∀ o ∈ rule.reads, o.length = d.dim ∧ deps.Covers o) :
    ps.Pairwise fun p q => rule.Conflicts p q → p < q := by
  rw [List.pairwise_iff_getElem]
  intro i j hi hj hij hconflict
  have hlength : ∀ k (hk : k < ps.length), ps[k].length = d.dim := fun k hk =>
    Domain.length_of_contains (hrecords.contains (List.getElem_mem hk))
  have htime : ∀ k (hk : k < ps.length), log.time? ps[k] = some k := fun k hk =>
    (hrecords.time _ k).mpr (List.getElem?_eq_getElem hk)
  have hne : ps[i] ≠ ps[j] := fun heq => by
    have hindex := hrecords.nodup.getElem_inj_iff.mp heq
    omega
  rcases DependencePattern.depends_of_conflicts hreads (hlength i hi) (hlength j hj) hne
    hconflict with ⟨-, o, ho, hsource⟩ | ⟨hlt, -⟩
  · -- the iteration visited first would depend on the one visited after it
    have hsource' : log.time? (ps[i].shift o) = some j := by rw [hsource, htime j hj]
    have hbefore := horder ps[i] (hrecords.contains (List.getElem_mem hi)) o ho i j (htime i hi)
      hsource'
    omega
  · exact hlt

theorem finalGrid_eq_inspect (nest : Nest) (input : Grid) :
    Observation.finalGrid rule aux nest input =
      (nest.visit (rule.apply aux)).inspect input Except.ok := by
  unfold Observation.finalGrid Stateful.inspect
  generalize (nest.visit (rule.apply aux)).run.run input = outcome
  obtain ⟨result, grid⟩ := outcome
  cases result <;> rfl

theorem finalGrid_eq_ok {input g : Grid} :
    Observation.finalGrid rule aux t input = .ok g ↔
      (t.visit (rule.apply aux)).final input = some g := by
  simp [finalGrid_eq_inspect, Stateful.inspect_eq_ok]

/-- A nest that passes the order check leaves the same grid behind as the reference nest. -/
theorem final_visit_eq_reference (hpos : t.Forward) (hd : t.domain.WellFormed)
    (hdeps : rule.dependencePattern t.domain.dim = .ok deps) (hcheck : t.verifyOrder deps = .ok ())
    {input : Grid} (hshape : input.shape.WellFormed) :
    (t.visit (rule.apply aux)).final input =
      ((reference t.domain).visit (rule.apply aux)).final input := by
  obtain ⟨log, hlog, horder⟩ := verifyOrder_eq_ok hd hcheck
  obtain ⟨hdef, hinv, hrecords, hperm⟩ := visitLog_eq_ok hpos hd hlog
  have hreads := UpdateRule.covers_of_dependencePattern hdeps
  have hsorted : t.domain.points.Pairwise fun p q => rule.Conflicts p q → p < q := by
    refine (Domain.pairwise_points hd).imp ?_
    intro p q hlt _
    exact hlt
  rw [visit_eq_forM hpos hdef hinv, visit_eq_forM (reference_forward _) (reference_defined _)
    (reference_inverts hd), reference_iterations hd, UpdateRule.final_forM_apply,
    UpdateRule.final_forM_apply]
  -- both runs are folds over the points of the domain, and conflicts are ordered alike in them
  exact foldlM_eq_of_perm (fun g => g.shape = input.shape) rule.Conflicts (· < ·)
    (fun g p g' hg hstep => (UpdateRule.shape_step? hstep).trans hg)
    (fun p q h => h.symm) (fun p q h => List.lt_asymm h)
    (fun p _ q _ h => UpdateRule.commutes_of_not_conflicts hshape h) hperm
    (pairwise_iterations hrecords horder hreads) hsorted rfl

end Nest

/-- Whatever a run of the reference nest shows, a run of a checked nest shows as well. -/
theorem Observation.observe_eq_ok {t : Nest} (hpos : t.Forward) (hd : t.domain.WellFormed)
    (hdeps : rule.dependencePattern t.domain.dim = .ok deps) (hcheck : t.verifyOrder deps = .ok ())
    {input : Grid} (hshape : input.shape.WellFormed) {observation : Observation} {seen : Observed}
    (h : observation.observe rule aux (.reference t.domain) input = .ok seen) :
    observation.observe rule aux t input = .ok seen := by
  have hgrid : ∀ g, finalGrid rule aux (.reference t.domain) input = .ok g →
      finalGrid rule aux t input = .ok g := by
    intro g hg
    rw [Nest.finalGrid_eq_ok] at hg ⊢
    rw [Nest.final_visit_eq_reference hpos hd hdeps hcheck hshape, hg]
  cases observation with
  | array =>
    obtain ⟨g, hg, hseen⟩ := Except.bind_eq_ok.mp h
    exact Except.bind_eq_ok.mpr ⟨g, hgrid g hg, hseen⟩
  | cell point =>
    obtain ⟨g, hg, hseen⟩ := Except.bind_eq_ok.mp h
    exact Except.bind_eq_ok.mpr ⟨g, hgrid g hg, hseen⟩
  | visitedSet =>
    obtain ⟨log, hlog, -⟩ := Nest.verifyOrder_eq_ok hd hcheck
    obtain ⟨hdef, hinv, -, hperm⟩ := Nest.visitLog_eq_ok hpos hd hlog
    have hreference := Nest.iterationPoints_eq_ok (Nest.reference_forward t.domain)
      (Nest.reference_defined t.domain) (Nest.reference_inverts hd)
    rw [Nest.reference_iterations hd] at hreference
    obtain ⟨ps, hps, hseen⟩ := Except.bind_eq_ok.mp h
    rw [hreference] at hps
    cases hps
    refine Except.bind_eq_ok.mpr ⟨t.iterations, Nest.iterationPoints_eq_ok hpos hdef hinv, ?_⟩
    -- both traces hold the points of the domain, and the observation sorts them
    rw [Point.mergeSort_eq_of_perm hperm]
    exact hseen

/-- The order check certifies equivalence. For a nest with positive strides that passes it for the
dependences of a rule, the comparison with the reference nest never finds a difference, on no input
and under no observation: it passes if the run of the reference nest succeeds, and otherwise it
fails with the error of that run. -/
theorem Oracle.check_of_verifyOrder {t : Nest} (hpos : t.Forward) (hd : t.domain.WellFormed)
    (hdeps : rule.dependencePattern t.domain.dim = .ok deps) (hcheck : t.verifyOrder deps = .ok ())
    {input : Grid} (hshape : input.shape.WellFormed) (name : String) (observation : Observation)
    (seed : Option UInt64) :
    (Oracle.mk name (.reference t.domain) t rule observation).check input aux seed =
      (observation.observe rule aux (.reference t.domain) input).map fun _ => .pass := by
  have hdomains : ¬(Nest.reference t.domain).domain ≠ t.domain := not_not_intro rfl
  rw [check, if_neg hdomains]
  change (observation.observe rule aux (.reference t.domain) input >>= fun expected =>
    observation.observe rule aux t input >>= fun actual =>
      pure (judge _ seed expected actual)) = _
  cases h : observation.observe rule aux (.reference t.domain) input with
  | error e => rfl
  | ok seen =>
    rw [Observation.observe_eq_ok hpos hd hdeps hcheck hshape h]
    have hagree : seen.agree seen := decide_eq_true rfl
    change Except.ok (judge _ seed seen seen) = Except.ok Verdict.pass
    rw [judge, if_pos hagree]

/-- Two loops in exchanged order, for a rule that reads the neighbours before it on both axes. -/
def interchangedNest : Nest :=
  { Nest.reference ⟨[0, 0], [2, 3]⟩ with
    loops := [Nest.referenceLoop 0 0 3, Nest.referenceLoop 1 0 2]
    inverse := ⟨⟨2, 2, #v[#v[0, 1], #v[1, 0]]⟩, 1⟩ }

/-- The exchanged loops sum up a grid as the reference nest does. -/
theorem Oracle.check_interchangedNest :
    (Oracle.mk "sum" (.reference ⟨[0, 0], [2, 3]⟩) interchangedNest
      (.stencil "sum" [[-1, 0], [0, -1]]) .array).check
        (Grid.repeating ⟨[-1, -1], [2, 3]⟩ #[1, 2, 3]) none none = .ok .pass := by
  have hforward : interchangedNest.Forward := by
    intro l hl
    simp only [interchangedNest, List.mem_cons, List.not_mem_nil, or_false] at hl
    rcases hl with rfl | rfl <;> exact one_pos
  have hdomain : interchangedNest.domain.WellFormed := .cons (by decide) (.cons (by decide) .nil)
  have hdeps : (UpdateRule.stencil "sum" [[-1, 0], [0, -1]]).dependencePattern 2 =
      .ok ⟨2, [[-1, 0], [0, -1]]⟩ := by decide +kernel
  have hcheck : interchangedNest.verifyOrder ⟨2, [[-1, 0], [0, -1]]⟩ = .ok () := by decide +kernel
  have hshape : (Grid.repeating ⟨[-1, -1], [2, 3]⟩ #[1, 2, 3]).shape.WellFormed :=
    .cons (by decide) (.cons (by decide) .nil)
  refine (check_of_verifyOrder hforward hdomain hdeps hcheck hshape "sum" .array none).trans ?_
  decide +kernel

end AffineLoops
