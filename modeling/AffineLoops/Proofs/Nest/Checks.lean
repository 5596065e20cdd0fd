import AffineLoops.Proofs.Nest.Coverage
/-!
# Exactness of the checks

The coverage check passes exactly if the iterations of the nest are the points of the domain in some
order, and otherwise fails as a mismatch. The order check first checks coverage, and then passes
exactly if every source comes before what depends on it. Nothing is assumed about the bounds or the
inverse map: a division by zero in them is a fault, and no verdict of a check.

## Main definitions

- `InverseMap.kind_of_apply`, `VisitLog.kind_of_visit` — the failures inside a walk
- `Nest.verifyCoverage_eq_ok_iff`, `Nest.verifyCoverage_eq_error` — the coverage check
- `Nest.verifyOrder_eq_ok_iff_before` — the order check
- `Nest.checks_exact` — both checks
-/

namespace AffineLoops

/-- A tuple that stands for no iteration is a mismatch, unless the map divides by zero. -/
theorem InverseMap.kind_of_apply {f : InverseMap} {q : Point} {e : Error}
    (h : f.apply q = .error e) :
    e.derivationKind? = some .boundsMismatch ∨ e = .fault .divisionByZero ∧ f.divisor = 0 := by
  unfold apply at h
  split at h
  · cases h
    exact Or.inl rfl
  · next scaled _ =>
    clear * - h
    induction scaled with
    | nil => cases h
    | cons s scaled ih =>
      rw [List.mapM_cons] at h
      rcases Except.bind_eq_error.mp h with hs | ⟨x, -, hrest⟩
      · unfold divide at hs
        split at hs
        · next hzero =>
          cases hs
          exact Or.inr ⟨rfl, hzero⟩
        · split at hs
          · cases hs
          · cases hs
            exact Or.inl rfl
      · rcases Except.bind_eq_error.mp hrest with hr | ⟨r, -, hpure⟩
        · exact ih hr
        · cases hpure

/-- A visit that is not recorded is a mismatch. -/
theorem VisitLog.kind_of_visit {p : Point} {log : VisitLog} {e : Error}
    (h : (visit p).error? log = some e) : e.derivationKind? = some .boundsMismatch := by
  have hrun : (visit p).run.run log = visit p log := rfl
  rw [Stateful.error?, hrun, visit] at h
  cases hk : log.domain.linearIndex? p with
  | none =>
    rw [hk] at h
    cases h
    rfl
  | some k =>
    simp only [hk] at h
    split at h
    · next heq =>
      split at heq <;> cases heq
      cases h
    · next heq =>
      split at heq <;> cases heq
      cases h
      rfl

/-- The time of a visit is the position of the point in the list of the visits. -/
theorem VisitLog.Records.time?_eq_idxOf {log : VisitLog} {d : Domain} {ps : List Point} {p : Point}
    (h : log.Records d ps) (hp : p ∈ ps) : log.time? p = some (ps.idxOf p) := by
  rw [h.time, List.getElem?_eq_getElem (List.idxOf_lt_length_of_mem hp), List.getElem_idxOf]

namespace Nest

variable {nest : Nest}

theorem verifyCoverage_eq_ok_iff_log :
    nest.verifyCoverage = .ok () ↔ ∃ log, nest.visitLog = .ok log := by
  rw [verifyCoverage, Except.bind_eq_ok]
  exact ⟨fun ⟨log, hlog, _⟩ => ⟨log, hlog⟩, fun ⟨log, hlog⟩ => ⟨log, hlog, rfl⟩⟩

/-- The coverage check passes exactly if the iterations are the points of the domain, each of them
once. -/
theorem verifyCoverage_eq_ok_iff (hpos : nest.Forward) (hd : nest.domain.WellFormed) :
    nest.verifyCoverage = .ok () ↔
      ∃ ps, nest.iterationPoints = .ok ps ∧ ps.Perm nest.domain.points := by
  rw [verifyCoverage_eq_ok_iff_log]
  constructor
  · rintro ⟨log, hlog⟩
    obtain ⟨hdef, hinv, -, hperm⟩ := visitLog_eq_ok hpos hd hlog
    exact ⟨_, iterationPoints_eq_ok hpos hdef hinv, hperm⟩
  · rintro ⟨ps, hps, hperm⟩
    obtain ⟨⟨hdef, hinv⟩, rfl⟩ := (iterationPoints_eq_ok_iff hpos).mp hps
    exact exists_visitLog hpos hd hdef hinv hperm

/-- What keeps a nest from being logged to the end is a mismatch, or a division by zero. -/
theorem kind_of_visitLog (hpos : nest.Forward) {e : Error} (h : nest.visitLog = .error e) :
    e.derivationKind? = some .boundsMismatch ∨
      e = .fault .divisionByZero ∧ (¬nest.Defined ∨ nest.inverse.divisor = 0) := by
  rcases Stateful.inspect_eq_error.mp (visitLog_eq_inspect nest ▸ h) with hvisit | ⟨log, -, hlook⟩
  · rcases error?_visit hpos hvisit with ⟨rfl, hundef⟩ | ⟨q, hq⟩ | ⟨p, t, hp⟩
    · exact Or.inr ⟨rfl, Or.inl hundef⟩
    · exact (InverseMap.kind_of_apply hq).imp_right fun hfault => ⟨hfault.1, Or.inr hfault.2⟩
    · exact Or.inl (VisitLog.kind_of_visit hp)
  · split at hlook
    · cases hlook
    · cases hlook
      exact Or.inl rfl

theorem verifyCoverage_eq_error {e : Error} :
    nest.verifyCoverage = .error e ↔ nest.visitLog = .error e := by
  rw [verifyCoverage, Except.bind_eq_error]
  exact ⟨fun h => h.resolve_right nofun, Or.inl⟩

/-- The order check fails like the coverage check. -/
theorem verifyOrder_of_coverage_error {deps : DependencePattern} {e : Error}
    (h : nest.verifyCoverage = .error e) : nest.verifyOrder deps = .error e := by
  rw [verifyOrder, verifyCoverage_eq_error.mp h]
  rfl

/-- The order check passes exactly if the coverage check does and every source in the domain comes
before what depends on it. -/
theorem verifyOrder_eq_ok_iff_before (hpos : nest.Forward) (hd : nest.domain.WellFormed)
    {deps : DependencePattern} : nest.verifyOrder deps = .ok () ↔
      nest.verifyCoverage = .ok () ∧ ∃ ps, nest.iterationPoints = .ok ps ∧
        ∀ p, nest.domain.contains p → ∀ o ∈ deps.offsets, nest.domain.contains (p.shift o) →
          ps.idxOf (p.shift o) < ps.idxOf p := by
  rw [verifyOrder_eq_ok_iff hd, verifyCoverage_eq_ok_iff_log]
  constructor
  · rintro ⟨log, hlog, horder⟩
    obtain ⟨hdef, hinv, hrecords, hperm⟩ := visitLog_eq_ok hpos hd hlog
    refine ⟨⟨log, hlog⟩, _, iterationPoints_eq_ok hpos hdef hinv, fun p hp o ho hsource => ?_⟩
    have hmem : ∀ q, nest.domain.contains q → q ∈ nest.iterations := fun q hq =>
      hperm.symm.subset ((Domain.mem_points hd).mpr hq)
    exact horder p hp o ho _ _ (hrecords.time?_eq_idxOf (hmem p hp))
      (hrecords.time?_eq_idxOf (hmem _ hsource))
  · rintro ⟨⟨log, hlog⟩, ps, hps, hbefore⟩
    obtain ⟨hdef, hinv, hrecords, hperm⟩ := visitLog_eq_ok hpos hd hlog
    rw [iterationPoints_eq_ok hpos hdef hinv] at hps
    cases hps
    refine ⟨log, hlog, fun p hp o ho i j hi hj => ?_⟩
    have hpmem := List.mem_of_getElem? ((hrecords.time p i).mp hi)
    have hsource := List.mem_of_getElem? ((hrecords.time _ j).mp hj)
    have hlt := hbefore p hp o ho ((Domain.mem_points hd).mp (hperm.subset hsource))
    rw [hrecords.time?_eq_idxOf hpmem] at hi
    rw [hrecords.time?_eq_idxOf hsource] at hj
    cases hi
    cases hj
    exact hlt

/-- The two checks of a nest with positive strides are exact. Coverage holds if the iterations can be
listed and are the points of the domain in some order, and every other verdict is a mismatch; a
division by zero in a bound or in the inverse map is a fault before any verdict. The order check
passes if coverage holds and every source in the domain comes before what depends on it. It gives
the error of the coverage check if that fails, and otherwise fails for the order. -/
theorem checks_exact (hpos : nest.Forward) (hd : nest.domain.WellFormed) :
    (nest.verifyCoverage = .ok () ↔
      ∃ ps, nest.iterationPoints = .ok ps ∧ ps.Perm nest.domain.points) ∧
    (∀ e, nest.verifyCoverage = .error e → e.derivationKind? = some .boundsMismatch ∨
      e = .fault .divisionByZero ∧ (¬nest.Defined ∨ nest.inverse.divisor = 0)) ∧
    ∀ deps : DependencePattern,
      (nest.verifyOrder deps = .ok () ↔
        nest.verifyCoverage = .ok () ∧ ∃ ps, nest.iterationPoints = .ok ps ∧
          ∀ p, nest.domain.contains p → ∀ o ∈ deps.offsets, nest.domain.contains (p.shift o) →
            ps.idxOf (p.shift o) < ps.idxOf p) ∧
      (∀ e, nest.verifyCoverage = .error e → nest.verifyOrder deps = .error e) ∧
      ∀ e, nest.verifyCoverage = .ok () → nest.verifyOrder deps = .error e →
        e.derivationKind? = some .dependenceOrder := by
  refine ⟨verifyCoverage_eq_ok_iff hpos hd,
    fun e he => kind_of_visitLog hpos (verifyCoverage_eq_error.mp he), fun deps =>
      ⟨verifyOrder_eq_ok_iff_before hpos hd, fun e => verifyOrder_of_coverage_error, fun e hok he => ?_⟩⟩
  obtain ⟨log, hlog⟩ := verifyCoverage_eq_ok_iff_log.mp hok
  exact verifyOrder_eq_error hlog he

/-- A loop that stops one short of an axis of three points, and one that runs along it backwards,
against a dependence on the point before. -/
theorem checks_exact_axis :
    (∃ e, verifyCoverage ⟨⟨[0], [3]⟩, .identity 1, [⟨"c0", .const 0, .const 1, 1⟩], .identity 1,
        none⟩ = .error e ∧ e.derivationKind? = some .boundsMismatch) ∧
    verifyCoverage ⟨⟨[0], [3]⟩, ⟨⟨1, 1, #v[#v[-1]]⟩, -1⟩, [⟨"c0", .const (-2), .const 0, 1⟩],
      ⟨⟨1, 1, #v[#v[1]]⟩, -1⟩, none⟩ = .ok () ∧
    ∃ e, verifyOrder ⟨⟨[0], [3]⟩, ⟨⟨1, 1, #v[#v[-1]]⟩, -1⟩, [⟨"c0", .const (-2), .const 0, 1⟩],
      ⟨⟨1, 1, #v[#v[1]]⟩, -1⟩, none⟩ ⟨1, [[-1]]⟩ = .error e ∧
        e.derivationKind? = some .dependenceOrder := by
  have hd : Domain.WellFormed ⟨[0], [3]⟩ := .cons (by decide) .nil
  constructor
  · have hpos : Forward ⟨⟨[0], [3]⟩, .identity 1, [⟨"c0", .const 0, .const 1, 1⟩], .identity 1,
        none⟩ := by simp [Forward]
    obtain ⟨hcovers, hkind, -⟩ := checks_exact hpos hd
    cases hcheck : verifyCoverage ⟨⟨[0], [3]⟩, .identity 1, [⟨"c0", .const 0, .const 1, 1⟩],
        .identity 1, none⟩ with
    | ok u =>
      obtain ⟨ps, hps, hperm⟩ := hcovers.mp hcheck
      have hshort := hperm.length_eq
      cases hps
      cases hshort
    | error e =>
      refine ⟨e, rfl, (hkind e hcheck).resolve_right ?_⟩
      rintro ⟨-, hundef | hzero⟩
      · exact hundef (definedFrom_of_forall (by simp [Bound.isDefined]) [])
      · cases hzero
  · have hpos : Forward ⟨⟨[0], [3]⟩, ⟨⟨1, 1, #v[#v[-1]]⟩, -1⟩, [⟨"c0", .const (-2), .const 0, 1⟩],
        ⟨⟨1, 1, #v[#v[1]]⟩, -1⟩, none⟩ := by simp [Forward]
    obtain ⟨hcovers, -, horders⟩ := checks_exact hpos hd
    obtain ⟨hbefore, -, hkind⟩ := horders ⟨1, [[-1]]⟩
    have hpoints : iterationPoints ⟨⟨[0], [3]⟩, ⟨⟨1, 1, #v[#v[-1]]⟩, -1⟩,
        [⟨"c0", .const (-2), .const 0, 1⟩], ⟨⟨1, 1, #v[#v[1]]⟩, -1⟩, none⟩ =
          .ok [[2], [1], [0]] := by decide
    have hok := hcovers.mpr ⟨_, hpoints, by decide⟩
    refine ⟨hok, ?_⟩
    cases hcheck : verifyOrder ⟨⟨[0], [3]⟩, ⟨⟨1, 1, #v[#v[-1]]⟩, -1⟩,
        [⟨"c0", .const (-2), .const 0, 1⟩], ⟨⟨1, 1, #v[#v[1]]⟩, -1⟩, none⟩ ⟨1, [[-1]]⟩ with
    | ok u =>
      obtain ⟨-, ps, hps, horder⟩ := hbefore.mp hcheck
      cases hpoints.symm.trans hps
      exact absurd (horder [1] (by decide) [-1] (by decide) (by decide)) (by decide)
    | error e => exact ⟨e, rfl, hkind e hok hcheck⟩

end Nest

end AffineLoops
