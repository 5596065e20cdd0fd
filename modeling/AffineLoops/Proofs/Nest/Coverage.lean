import AffineLoops.Nest.Coverage
import AffineLoops.Proofs.Domain
import AffineLoops.Proofs.Except
import AffineLoops.Proofs.Nest.Walk
import Mathlib.Data.List.Perm.Subperm
/-!
# What the coverage checks establish

The log of a walk gives every visited point the time of its visit. Since no point is visited twice
and none outside the domain, a log with as many visits as the domain has points shows that the walk
goes through all of them, each once. The order check then compares times.

## Main definitions

- `VisitLog.Records` — the log of the visits of a list of points
- `Nest.visitLog_eq_ok` — a covered domain, and the log of its walk
- `Nest.exists_visitLog` — a nest that covers its domain has a log
- `Nest.verifyOrder_eq_ok_iff` — every source is visited before what depends on it
-/

namespace AffineLoops

namespace VisitLog

variable {log log' : VisitLog} {d : Domain} {ps : List Point} {p : Point}

/-- The log after the points `ps` have been visited in this order. -/
structure Records (log : VisitLog) (d : Domain) (ps : List Point) : Prop where
  domain : log.domain = d
  size : log.times.size = d.size
  visits : log.visits = ps.length
  time : ∀ p i, log.time? p = some i ↔ ps[i]? = some p

theorem records_empty (d : Domain) : (empty d).Records d [] := by
  refine ⟨rfl, Array.size_replicate, rfl, fun p i => ?_⟩
  constructor
  · intro h
    unfold time? empty at h
    cases hp : d.linearIndex? p with
    | none =>
      rw [hp] at h
      cases h
    | some k =>
      simp only [hp, Option.bind_eq_bind, Option.bind_some, Array.getElem?_replicate] at h
      split at h <;> cases h
  · intro h
    cases h

theorem Records.contains (h : log.Records d ps) (hp : p ∈ ps) : d.contains p := by
  obtain ⟨i, hi⟩ := List.mem_iff_getElem?.mp hp
  have htime := (h.time p i).mpr hi
  unfold time? at htime
  rw [h.domain] at htime
  by_contra hcontains
  rw [Domain.linearIndex?_eq_none.mpr hcontains] at htime
  cases htime

theorem Records.nodup (h : log.Records d ps) : ps.Nodup := by
  rw [List.nodup_iff_injective_get]
  intro i j hij
  have hi : log.time? (ps.get i) = some i := (h.time _ _).mpr (by simp)
  have hj : log.time? (ps.get i) = some j := (h.time _ _).mpr (by rw [hij]; simp)
  exact Fin.ext (Option.some_inj.mp (hi.symm.trans hj))

/-- A visit that is recorded is the first one of a point of the domain. -/
theorem final_visit (h : (visit p).final log = some log') :
    ∃ k, log.domain.linearIndex? p = some k ∧ log.time? p = none ∧ log' = log.record k := by
  have hrun : (visit p).run.run log = visit p log := rfl
  rw [Stateful.final, hrun, visit] at h
  cases hk : log.domain.linearIndex? p with
  | none =>
    rw [hk] at h
    cases h
  | some k =>
    simp only [hk] at h
    have htime : log.time? p = (log.times[k]?).join := by
      rw [time?, hk]
      rfl
    cases hentry : log.times[k]? with
    | none =>
      rw [hentry] at h htime
      cases h
      exact ⟨k, rfl, htime, rfl⟩
    | some entry =>
      cases entry with
      | none =>
        rw [hentry] at h htime
        cases h
        exact ⟨k, rfl, htime, rfl⟩
      | some i =>
        rw [hentry] at h
        cases h

theorem time?_record {k : ℕ} (hk : k < log.times.size) (q : Point) :
    (log.record k).time? q =
      if log.domain.linearIndex? q = some k then some log.visits else log.time? q := by
  unfold time? record
  cases hq : log.domain.linearIndex? q with
  | none => simp
  | some j =>
    simp only [Option.bind_eq_bind, Option.bind_some, Array.getElem?_setIfInBounds, hk, if_true,
      Option.some_inj, eq_comm (a := k)]
    split <;> rfl

/-- A recorded visit adds the point at the end. -/
theorem Records.visit (hd : d.WellFormed) (h : log.Records d ps)
    (hvisit : (visit p).final log = some log') : log'.Records d (ps ++ [p]) := by
  obtain ⟨k, hk, hfirst, rfl⟩ := final_visit hvisit
  have hnew : p ∉ ps := by
    intro hp
    obtain ⟨i, hi⟩ := List.mem_iff_getElem?.mp hp
    rw [(h.time p i).mpr hi] at hfirst
    cases hfirst
  rw [h.domain] at hk
  have hin : k < log.times.size := by
    obtain ⟨hlt, -⟩ := List.getElem?_eq_some_iff.mp ((Domain.linearIndex?_eq_some hd).mp hk)
    rwa [h.size, ← Domain.length_points hd]
  refine ⟨h.domain, ?_, ?_, fun q i => ?_⟩
  · rw [record, Array.size_setIfInBounds, h.size]
  · rw [record, h.visits, List.length_append, List.length_singleton]
  · -- the new time is the number of visits so far, which is the position of the new point
    rw [time?_record hin, h.domain, h.visits, List.getElem?_append]
    by_cases hq : d.linearIndex? q = some k
    · obtain rfl := Domain.linearIndex?_inj hd hq hk
      rw [if_pos hq, Option.some_inj]
      split
      · next hlt =>
        constructor
        · intro hi
          omega
        · intro hi
          exact absurd (List.mem_of_getElem? hi) hnew
      · next hge =>
        rw [List.getElem?_singleton]
        constructor
        · rintro rfl
          simp
        · intro hi
          split at hi
          · omega
          · cases hi
    · have hne : p ≠ q := fun heq => hq (heq ▸ hk)
      rw [if_neg hq, h.time q i]
      split
      · rfl
      · next hge =>
        rw [List.getElem?_singleton, List.getElem?_eq_none (by omega)]
        split
        · simp [hne]
        · rfl

/-- The first visit of a point of the domain is recorded. -/
theorem Records.exists_visit (h : log.Records d ps) (hp : d.contains p) (hnew : p ∉ ps) :
    ∃ log', (VisitLog.visit p).final log = some log' := by
  obtain ⟨k, hk⟩ := Domain.exists_linearIndex?_iff.mpr (h.domain ▸ hp)
  have hfree : (log.times[k]?).join = none := by
    have htime : log.time? p = none := by
      rw [Option.eq_none_iff_forall_ne_some]
      exact fun i hi => hnew (List.mem_of_getElem? ((h.time p i).mp hi))
    simpa [time?, hk] using htime
  refine ⟨log.record k, Stateful.final_eq_some.mpr ?_⟩
  show VisitLog.visit p log = _
  simp only [VisitLog.visit, hk]
  split
  · next i hi =>
    rw [hi] at hfree
    cases hfree
  · rfl

/-- First visits of points of the domain are all recorded. -/
theorem Records.exists_log (hd : d.WellFormed) {qs : List Point} (h : log.Records d ps)
    (hqs : ∀ q ∈ qs, d.contains q) (hnodup : (ps ++ qs).Nodup) :
    ∃ log', (forM qs VisitLog.visit).final log = some log' := by
  induction qs generalizing log ps with
  | nil => exact ⟨log, rfl⟩
  | cons q qs ih =>
    have hnew : q ∉ ps := fun hq => List.disjoint_of_nodup_append hnodup hq List.mem_cons_self
    obtain ⟨mid, hmid⟩ := h.exists_visit (hqs q List.mem_cons_self) hnew
    obtain ⟨log', hlog'⟩ := ih (h.visit hd hmid) (fun q' hq' => hqs q' (List.mem_cons_of_mem q hq'))
      (by rwa [← List.append_cons])
    refine ⟨log', ?_⟩
    rw [List.forM_cons, Stateful.final_bind, hmid]
    exact hlog'

theorem Records.forM (hd : d.WellFormed) {qs : List Point} (h : log.Records d ps)
    (hvisits : (forM qs VisitLog.visit).final log = some log') : log'.Records d (ps ++ qs) := by
  induction qs generalizing log ps with
  | nil =>
    cases hvisits
    rwa [List.append_nil]
  | cons q qs ih =>
    rw [List.forM_cons, Stateful.final_bind, Option.bind_eq_bind, Option.bind_eq_some_iff] at hvisits
    obtain ⟨mid, hmid, hrest⟩ := hvisits
    rw [List.append_cons]
    exact ih (h.visit hd hmid) hrest

/-- No source of a point is late if all of them have an earlier time. -/
theorem lateSource?_eq_none_iff {offsets : List Point} {sink : Point} :
    log.lateSource? offsets sink = none ↔ ∀ o ∈ offsets, ∀ i j,
      log.time? sink = some i → log.time? (sink.shift o) = some j → j < i := by
  rw [lateSource?]
  cases hsink : log.time? sink with
  | none => simp
  | some i =>
    simp only [Option.bind_eq_bind, Option.bind_some, List.find?_eq_none, List.forall_mem_map,
      Option.some_inj]
    refine forall₂_congr fun o _ => ?_
    cases log.time? (sink.shift o) <;> simp

end VisitLog

namespace Nest

variable {nest : Nest} {log : VisitLog}

theorem visitLog_eq_inspect (nest : Nest) : nest.visitLog =
    (nest.visit VisitLog.visit).inspect (.empty nest.domain) fun log =>
      if log.visits = nest.domain.size then .ok log
      else .error (.derivation (.visitsTooFew log.visits nest.domain)) := by
  unfold visitLog Stateful.inspect
  generalize (nest.visit VisitLog.visit).run.run (.empty nest.domain) = outcome
  obtain ⟨result, state⟩ := outcome
  cases result <;> rfl

theorem visitLog_eq_ok_iff : nest.visitLog = .ok log ↔
    (nest.visit VisitLog.visit).final (.empty nest.domain) = some log ∧
      log.visits = nest.domain.size := by
  rw [visitLog_eq_inspect, Stateful.inspect_eq_ok]
  constructor
  · rintro ⟨log', hrun, hlook⟩
    split at hlook
    · next hvisits =>
      cases hlook
      exact ⟨hrun, hvisits⟩
    · cases hlook
  · rintro ⟨hrun, hvisits⟩
    exact ⟨log, hrun, if_pos hvisits⟩

/-- A nest that covers its domain goes through all points of the domain, each of them once, and the
log tells when. -/
theorem visitLog_eq_ok (hpos : nest.Forward) (hd : nest.domain.WellFormed)
    (h : nest.visitLog = .ok log) :
    nest.Defined ∧ nest.Inverts ∧ log.Records nest.domain nest.iterations ∧
      nest.iterations.Perm nest.domain.points := by
  obtain ⟨hrun, hcount⟩ := visitLog_eq_ok_iff.mp h
  obtain ⟨hdef, hinv⟩ := defined_and_inverts_of_final hpos hrun
  rw [visit_eq_forM hpos hdef hinv] at hrun
  have hrecords : log.Records nest.domain nest.iterations :=
    (VisitLog.records_empty nest.domain).forM hd hrun
  refine ⟨hdef, hinv, hrecords, ?_⟩
  -- without repetitions and inside the domain, so as many visits as points are all of them
  have hsub : nest.iterations.Subperm nest.domain.points :=
    List.subperm_of_subset hrecords.nodup fun p hp =>
      (Domain.mem_points hd).mpr (hrecords.contains hp)
  refine hsub.perm_of_length_le ?_
  rw [Domain.length_points hd, ← hcount, hrecords.visits]

/-- A nest that goes through all points of its domain, each of them once, is logged to the end. -/
theorem exists_visitLog (hpos : nest.Forward) (hd : nest.domain.WellFormed) (hdef : nest.Defined)
    (hinv : nest.Inverts) (hperm : nest.iterations.Perm nest.domain.points) :
    ∃ log, nest.visitLog = .ok log := by
  have hempty := VisitLog.records_empty nest.domain
  have hnodup : nest.domain.points.Nodup := (Domain.pairwise_points hd).imp fun hlt => hlt.ne
  obtain ⟨log, hlog⟩ := hempty.exists_log hd
    (fun q hq => (Domain.mem_points hd).mp (hperm.subset hq)) (hperm.nodup_iff.mpr hnodup)
  have hvisits : log.visits = nest.domain.size := by
    rw [(hempty.forM hd hlog).visits, List.nil_append, hperm.length_eq, Domain.length_points hd]
  rw [← visit_eq_forM hpos hdef hinv] at hlog
  exact ⟨log, visitLog_eq_ok_iff.mpr ⟨hlog, hvisits⟩⟩

/-- The order check passes exactly if the nest covers its domain and goes through every point after
those that it depends on. -/
theorem verifyOrder_eq_ok_iff {deps : DependencePattern} (hd : nest.domain.WellFormed) :
    nest.verifyOrder deps = .ok () ↔
      ∃ log, nest.visitLog = .ok log ∧ ∀ sink, nest.domain.contains sink → ∀ o ∈ deps.offsets,
        ∀ i j, log.time? sink = some i → log.time? (sink.shift o) = some j → j < i := by
  rw [verifyOrder, Except.bind_eq_ok]
  refine exists_congr fun log => and_congr_right fun _ => ?_
  have hnone : (nest.domain.points.findSome? fun sink =>
      (log.lateSource? deps.offsets sink).map fun source => (source, sink)) = none ↔
        ∀ sink, nest.domain.contains sink → log.lateSource? deps.offsets sink = none := by
    simp [List.findSome?_eq_none_iff, Domain.mem_points hd]
  simp only [← VisitLog.lateSource?_eq_none_iff, ← hnone]
  split
  · next source sink hfind =>
    rw [hfind]
    constructor <;> intro h <;> cases h
  · next hfind => exact iff_of_true rfl hfind

/-- When the order check passes, a point that another one depends on is visited before it. -/
theorem verifyOrder_eq_ok {deps : DependencePattern} (hd : nest.domain.WellFormed)
    (h : nest.verifyOrder deps = .ok ()) :
    ∃ log, nest.visitLog = .ok log ∧ ∀ sink, nest.domain.contains sink → ∀ o ∈ deps.offsets,
      ∀ i j, log.time? sink = some i → log.time? (sink.shift o) = some j → j < i :=
  (verifyOrder_eq_ok_iff hd).mp h

/-- A nest that covers its domain can only fail the order check by its order. -/
theorem verifyOrder_eq_error {deps : DependencePattern} (hlog : nest.visitLog = .ok log) {e : Error}
    (h : nest.verifyOrder deps = .error e) : e.derivationKind? = some .dependenceOrder := by
  rw [verifyOrder, hlog] at h
  simp only [Except.bind_ok] at h
  split at h
  · cases h
    rfl
  · cases h

end Nest

end AffineLoops
