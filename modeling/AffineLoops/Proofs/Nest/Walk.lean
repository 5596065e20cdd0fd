import AffineLoops.Nest.Walk
import AffineLoops.Proofs.Stateful
import Mathlib.Data.Int.Order.Basic
import Mathlib.Data.List.Lex
import Mathlib.Tactic.Ring
/-!
# What a walk visits

A walk over loops with positive strides goes through a list of tuples that depends on the bounds
alone, and does at each tuple what it is asked to. The list is strictly increasing in the
lexicographic order, so no tuple is visited twice.

## Main definitions

- `Loop.values` — the values of one loop variable, for given values of the loops around
- `Nest.tuples` — the tuples of loop values in loop order
- `Nest.Defined` — no bound that is evaluated on the way divides by zero
- `Nest.iterations` — the iterations that the tuples stand for
- `Nest.walk_eq_forM`, `Nest.visit_eq_forM` — a walk is an iteration over a list
- `Nest.pairwise_tuples` — the list is strictly increasing
- `Nest.error?_visit` — what a visit can fail with
- `Nest.transformedPoints_eq_ok_iff`, `Nest.iterationPoints_eq_ok_iff` — when tuples and iterations can
  be listed
-/

namespace AffineLoops

namespace Loop

/-- The values of the loop variable, in the order of the loop. -/
def values (l : Loop) (outer : Point) : List ℤ :=
  (List.range (turns (l.lower.eval outer) (l.upper.eval outer) l.step)).map
    fun k : ℕ => l.lower.eval outer + k * l.step

/-- A loop with a positive stride runs as long as it does not pass its upper bound. -/
theorem lt_turns_iff {lo hi step : ℤ} (hstep : 0 < step) (k : ℕ) :
    k < turns lo hi step ↔ lo + k * step ≤ hi := by
  unfold turns
  by_cases hlt : hi < lo
  · rw [if_pos hlt]
    have hk : 0 ≤ (k : ℤ) * step := Int.mul_nonneg (Int.natCast_nonneg k) (by omega)
    omega
  · rw [if_neg hlt, if_pos hstep]
    have hquot : 0 ≤ (hi - lo) / step := Int.ediv_nonneg (by omega) (by omega)
    have hle : (k : ℤ) ≤ (hi - lo) / step ↔ k * step ≤ hi - lo := Int.le_ediv_iff_mul_le hstep
    omega

/-- The values are those between the bounds that are whole strides after the lower one. -/
theorem mem_values {l : Loop} {outer : Point} (hstep : 0 < l.step) {v : ℤ} :
    v ∈ l.values outer ↔
      (l.lower.eval outer ≤ v ∧ v ≤ l.upper.eval outer) ∧ l.step ∣ v - l.lower.eval outer := by
  simp only [values, List.mem_map, List.mem_range, lt_turns_iff hstep]
  constructor
  · rintro ⟨k, hk, rfl⟩
    have hturns : 0 ≤ (k : ℤ) * l.step := Int.mul_nonneg (Int.natCast_nonneg k) (by omega)
    exact ⟨⟨by omega, hk⟩, ⟨k, by ring⟩⟩
  · rintro ⟨⟨hlo, hhi⟩, k, hk⟩
    have hk0 : 0 ≤ k := by
      by_contra hneg
      have hlt : l.step * k < 0 := Int.mul_neg_of_pos_of_neg hstep (by omega)
      omega
    have hvalue : l.lower.eval outer + (k.toNat : ℤ) * l.step = v := by
      rw [Int.toNat_of_nonneg hk0, Int.mul_comm, ← hk]
      omega
    exact ⟨k.toNat, hvalue ▸ hhi, hvalue⟩

theorem pairwise_values {l : Loop} {outer : Point} (hstep : 0 < l.step) :
    (l.values outer).Pairwise (· < ·) := by
  rw [values, List.pairwise_map]
  refine List.pairwise_lt_range.imp fun {a b} hab => ?_
  have hmul : (a : ℤ) * l.step < b * l.step := Int.mul_lt_mul_of_pos_right (by omega) hstep
  omega

variable {σ : Type}

theorem forValues_eq_forM (step : ℤ) (body : ℤ → Stateful σ Unit) (n : ℕ) (v : ℤ) :
    forValues step body n v = forM ((List.range n).map fun k : ℕ => v + k * step) body := by
  induction n generalizing v with
  | zero => rfl
  | succ n ih =>
    rw [forValues, ih, List.range_succ_eq_map, List.map_cons, List.map_map, List.forM_cons]
    have hzero : v + ((0 : ℕ) : ℤ) * step = v := by simp
    have hnext : (fun k : ℕ => v + step + k * step) = (fun k : ℕ => v + k * step) ∘ Nat.succ := by
      funext k
      simp only [Function.comp_apply, Nat.cast_succ]
      ring
    rw [hzero, hnext]

/-- A loop with a positive stride and defined bounds goes through its values. -/
theorem forEach_eq_forM {l : Loop} {outer : Point} (hupper : l.upper.isDefined)
    (hlower : l.lower.isDefined) (hstep : 0 < l.step) (body : ℤ → Stateful σ Unit) :
    l.forEach outer body = forM (l.values outer) body := by
  have hend : ¬(l.step ≤ 0 ∧ l.lower.eval outer ≤ l.upper.eval outer) := by omega
  simp only [forEach, hupper, hlower, Bool.and_self, if_true, if_neg hend, bind_pure_unit,
    forValues_eq_forM]
  rfl

theorem forEach_of_undefined {l : Loop} {outer : Point}
    (h : ¬(l.upper.isDefined ∧ l.lower.isDefined)) (body : ℤ → Stateful σ Unit) :
    l.forEach outer body = throw (.fault .divisionByZero) := by
  have hcond : (l.upper.isDefined && l.lower.isDefined) = false := by
    simpa [← Bool.not_eq_true] using h
  simp only [forEach, hcond, Bool.false_eq_true, if_false]
  rfl

end Loop

namespace Nest

/-- The tuples of values of some loops, each after the values of the loops around. -/
def tuplesFrom : List Loop → Point → List Point
  | [], outer => [outer]
  | l :: loops, outer => (l.values outer).flatMap fun v => tuplesFrom loops (outer ++ [v])

/-- The tuples of loop values, in loop order. -/
def tuples (nest : Nest) : List Point :=
  tuplesFrom nest.loops []

/-- Every loop that is entered has defined bounds. -/
def DefinedFrom : List Loop → Point → Prop
  | [], _ => True
  | l :: loops, outer => (l.upper.isDefined ∧ l.lower.isDefined) ∧
      ∀ v ∈ l.values outer, DefinedFrom loops (outer ++ [v])

/-- No bound that is evaluated in a walk divides by zero. -/
def Defined (nest : Nest) : Prop :=
  DefinedFrom nest.loops []

/-- Every loop has a positive stride. -/
def Forward (nest : Nest) : Prop :=
  ∀ l ∈ nest.loops, 0 < l.step

variable {σ : Type} {nest : Nest}

/-- Bounds that are all defined need no condition on when they are evaluated. -/
theorem definedFrom_of_forall {loops : List Loop}
    (h : ∀ l ∈ loops, l.upper.isDefined ∧ l.lower.isDefined) (outer : Point) :
    DefinedFrom loops outer := by
  induction loops generalizing outer with
  | nil => trivial
  | cons l loops ih =>
    exact ⟨h l List.mem_cons_self,
      fun v _ => ih (fun l' hl' => h l' (List.mem_cons_of_mem l hl')) _⟩

/-! ### The order of the tuples -/

/-- The values of the loops around come first. -/
theorem exists_append_of_mem_tuplesFrom {loops : List Loop} {outer q : Point}
    (h : q ∈ tuplesFrom loops outer) : ∃ r, q = outer ++ r ∧ r.length = loops.length := by
  induction loops generalizing outer with
  | nil =>
    rw [tuplesFrom, List.mem_singleton] at h
    exact ⟨[], by rw [h, List.append_nil], rfl⟩
  | cons l loops ih =>
    obtain ⟨v, -, hq⟩ := List.mem_flatMap.mp h
    obtain ⟨r, rfl, hr⟩ := ih hq
    exact ⟨v :: r, by rw [List.append_assoc, List.singleton_append], by rw [List.length_cons, hr,
      List.length_cons]⟩

theorem length_of_mem_tuples {q : Point} (h : q ∈ nest.tuples) : q.length = nest.depth := by
  obtain ⟨r, rfl, hr⟩ := exists_append_of_mem_tuplesFrom h
  exact hr

/-- Later turns of a loop give later tuples, whatever the loops inside it do. -/
theorem pairwise_tuplesFrom {loops : List Loop} (h : ∀ l ∈ loops, 0 < l.step) (outer : Point) :
    (tuplesFrom loops outer).Pairwise (· < ·) := by
  induction loops generalizing outer with
  | nil => exact List.pairwise_singleton _ _
  | cons l loops ih =>
    rw [tuplesFrom, List.pairwise_flatMap]
    refine ⟨fun v _ => ih (fun l' hl' => h l' (List.mem_cons_of_mem l hl')) _, ?_⟩
    -- tuples of different turns already differ in the value of this loop
    refine (Loop.pairwise_values (h l List.mem_cons_self)).imp fun {v w} hvw p hp q hq => ?_
    obtain ⟨r, rfl, -⟩ := exists_append_of_mem_tuplesFrom hp
    obtain ⟨s, rfl, -⟩ := exists_append_of_mem_tuplesFrom hq
    rw [List.append_assoc, List.append_assoc]
    exact List.append_left_lt (List.cons_lt_cons_iff.mpr (Or.inl hvw))

/-- A walk with positive strides visits the tuples in lexicographic order, each of them once. -/
theorem pairwise_tuples (h : nest.Forward) : nest.tuples.Pairwise (· < ·) :=
  pairwise_tuplesFrom h []

/-! ### Walks as iterations over a list -/

theorem forM_flatMap {α β : Type} (l : List α) (g : α → List β) (f : β → Stateful σ Unit) :
    forM (l.flatMap g) f = forM l fun a => forM (g a) f := by
  induction l with
  | nil => rfl
  | cons a l ih => rw [List.flatMap_cons, List.forM_append, List.forM_cons, ih]

theorem forM_congr {α : Type} {l : List α} {f g : α → Stateful σ Unit} (h : ∀ a ∈ l, f a = g a) :
    forM l f = forM l g := by
  induction l with
  | nil => rfl
  | cons a l ih =>
    rw [List.forM_cons, List.forM_cons, h a List.mem_cons_self,
      ih fun b hb => h b (List.mem_cons_of_mem a hb)]

theorem walkFrom_eq_forM {loops : List Loop} {outer : Point} (hpos : ∀ l ∈ loops, 0 < l.step)
    (hdef : DefinedFrom loops outer) (f : Point → Stateful σ Unit) :
    walkFrom f loops outer = forM (tuplesFrom loops outer) f := by
  induction loops generalizing outer with
  | nil =>
    rw [walkFrom, tuplesFrom, List.forM_cons, List.forM_nil, bind_pure_unit]
  | cons l loops ih =>
    obtain ⟨⟨hupper, hlower⟩, hinner⟩ := hdef
    rw [walkFrom, Loop.forEach_eq_forM hupper hlower (hpos l List.mem_cons_self), tuplesFrom,
      forM_flatMap]
    exact forM_congr fun v hv => ih (fun l' hl' => hpos l' (List.mem_cons_of_mem l hl')) (hinner v hv)

/-- A walk does what it is asked to at every tuple, in order. -/
theorem walk_eq_forM (hpos : nest.Forward) (hdef : nest.Defined) (f : Point → Stateful σ Unit) :
    nest.walk f = forM nest.tuples f :=
  walkFrom_eq_forM hpos hdef f

/-- The iteration that a tuple stands for, if it stands for one. -/
def iterationOf (nest : Nest) (q : Point) : Point :=
  (nest.inverse.apply q).toOption.getD []

/-- The iterations in loop order, when every tuple stands for one. -/
def iterations (nest : Nest) : List Point :=
  nest.tuples.map nest.iterationOf

/-- Every tuple stands for an iteration. -/
def Inverts (nest : Nest) : Prop :=
  ∀ q ∈ nest.tuples, ∃ p, nest.inverse.apply q = .ok p

theorem iterationOf_eq {q p : Point} (h : nest.inverse.apply q = .ok p) :
    nest.iterationOf q = p := by
  rw [iterationOf, h]
  rfl

/-- A walk over iterations does what it is asked to at each of them, in order. -/
theorem visit_eq_forM (hpos : nest.Forward) (hdef : nest.Defined) (hinv : nest.Inverts)
    (f : Point → Stateful σ Unit) : nest.visit f = forM nest.iterations f := by
  rw [visit, walk_eq_forM hpos hdef, iterations, List.forM_map]
  refine forM_congr fun q hq => ?_
  obtain ⟨p, hp⟩ := hinv q hq
  rw [iterationOf_eq hp, hp]

/-! ### Walks that succeed -/

/-- A walk that comes to its end met no undefined bound. -/
theorem definedFrom_of_final {loops : List Loop} {outer : Point} {f : Point → Stateful σ Unit}
    {s s' : σ} (hpos : ∀ l ∈ loops, 0 < l.step)
    (h : (walkFrom f loops outer).final s = some s') : DefinedFrom loops outer := by
  induction loops generalizing outer s s' with
  | nil => trivial
  | cons l loops ih =>
    rw [walkFrom] at h
    by_cases hdef : l.upper.isDefined ∧ l.lower.isDefined
    · rw [Loop.forEach_eq_forM hdef.1 hdef.2 (hpos l List.mem_cons_self)] at h
      refine ⟨hdef, fun v hv => ?_⟩
      -- the turn at `v` came to its end as well, so the loops inside were defined there
      obtain ⟨t, t', ht⟩ := Stateful.exists_final_of_forM h v hv
      exact ih (fun l' hl' => hpos l' (List.mem_cons_of_mem l hl')) ht
    · rw [Loop.forEach_of_undefined hdef] at h
      cases h

/-- A visit that comes to its end met an iteration behind every tuple. -/
theorem defined_and_inverts_of_final (hpos : nest.Forward) {f : Point → Stateful σ Unit} {s s' : σ}
    (h : (nest.visit f).final s = some s') : nest.Defined ∧ nest.Inverts := by
  have hdef : nest.Defined := definedFrom_of_final hpos h
  refine ⟨hdef, fun q hq => ?_⟩
  rw [visit, walk_eq_forM hpos hdef] at h
  obtain ⟨t, t', ht⟩ := Stateful.exists_final_of_forM h q hq
  cases hinv : nest.inverse.apply q with
  | ok p => exact ⟨p, rfl⟩
  | error e =>
    rw [hinv] at ht
    cases ht

/-! ### Walks that fail -/

/-- A walk fails at a tuple, or because it meets an undefined bound. -/
theorem error?_walkFrom {loops : List Loop} {outer : Point} {f : Point → Stateful σ Unit} {s : σ}
    {e : Error} (hpos : ∀ l ∈ loops, 0 < l.step) (h : (walkFrom f loops outer).error? s = some e) :
    (e = .fault .divisionByZero ∧ ¬DefinedFrom loops outer) ∨ ∃ q t, (f q).error? t = some e := by
  induction loops generalizing outer s with
  | nil => exact Or.inr ⟨outer, s, h⟩
  | cons l loops ih =>
    rw [walkFrom] at h
    by_cases hdef : l.upper.isDefined ∧ l.lower.isDefined
    · rw [Loop.forEach_eq_forM hdef.1 hdef.2 (hpos l List.mem_cons_self)] at h
      obtain ⟨v, hv, t, hfail⟩ := Stateful.exists_error_of_forM h
      rcases ih (fun l' hl' => hpos l' (List.mem_cons_of_mem l hl')) hfail with ⟨rfl, hundef⟩ | hvisit
      · exact Or.inl ⟨rfl, fun hall => hundef (hall.2 v hv)⟩
      · exact Or.inr hvisit
    · rw [Loop.forEach_of_undefined hdef] at h
      cases h
      exact Or.inl ⟨rfl, fun hall => hdef hall.1⟩

/-- A visit fails at an iteration, at a tuple that stands for none, or at an undefined bound. -/
theorem error?_visit (hpos : nest.Forward) {f : Point → Stateful σ Unit} {s : σ} {e : Error}
    (h : (nest.visit f).error? s = some e) :
    (e = .fault .divisionByZero ∧ ¬nest.Defined) ∨ (∃ q, nest.inverse.apply q = .error e) ∨
      ∃ p t, (f p).error? t = some e := by
  rcases error?_walkFrom hpos h with hbound | ⟨q, t, hq⟩
  · exact Or.inl hbound
  · cases hinv : nest.inverse.apply q with
    | ok p =>
      rw [hinv] at hq
      exact Or.inr (Or.inr ⟨p, t, hq⟩)
    | error e' =>
      rw [hinv] at hq
      cases hq
      exact Or.inr (Or.inl ⟨q, hinv⟩)

/-! ### Traces -/

theorem run_forM_push (ps : List Point) (points : Array Point) :
    (forM ps fun p => (modify (·.push p) : Stateful (Array Point) Unit)).run.run points =
      (.ok (), points ++ ps.toArray) := by
  induction ps generalizing points with
  | nil => simp; rfl
  | cons p ps ih =>
    rw [List.forM_cons]
    change (forM ps fun p => (modify (·.push p) : Stateful (Array Point) Unit)).run.run
      (points.push p) = _
    rw [ih]
    simp

theorem trace_eq_ok {traversal : (Point → Stateful (Array Point) Unit) → Stateful (Array Point) Unit}
    {ps : List Point} (h : ∀ f, traversal f = forM ps f) : trace traversal = .ok ps := by
  rw [trace, h, run_forM_push]
  simp

theorem trace_eq_inspect
    (traversal : (Point → Stateful (Array Point) Unit) → Stateful (Array Point) Unit) :
    trace traversal = (traversal fun p => modify (·.push p)).inspect #[]
      fun points => .ok points.toList := by
  unfold trace Stateful.inspect
  generalize (traversal fun p => modify (·.push p)).run.run #[] = outcome
  obtain ⟨result, points⟩ := outcome
  cases result <;> rfl

theorem iterationPoints_eq_inspect (nest : Nest) : nest.iterationPoints =
    (nest.visit fun p => (modify (·.push p) : Stateful (Array Point) Unit)).inspect #[]
      fun points => .ok points.toList :=
  trace_eq_inspect nest.visit

theorem transformedPoints_eq_ok (hpos : nest.Forward) (hdef : nest.Defined) :
    nest.transformedPoints = .ok nest.tuples :=
  trace_eq_ok (walk_eq_forM hpos hdef)

/-- The tuples are listed exactly if every bound on the way is defined. -/
theorem transformedPoints_eq_ok_iff (hpos : nest.Forward) {qs : List Point} :
    nest.transformedPoints = .ok qs ↔ nest.Defined ∧ nest.tuples = qs := by
  constructor
  · intro h
    have hwalk := h
    rw [transformedPoints, trace_eq_inspect] at hwalk
    obtain ⟨s', hs', -⟩ := Stateful.inspect_eq_ok.mp hwalk
    have hdef : nest.Defined := definedFrom_of_final hpos hs'
    rw [transformedPoints_eq_ok hpos hdef] at h
    cases h
    exact ⟨hdef, rfl⟩
  · rintro ⟨hdef, rfl⟩
    exact transformedPoints_eq_ok hpos hdef

theorem iterationPoints_eq_ok (hpos : nest.Forward) (hdef : nest.Defined) (hinv : nest.Inverts) :
    nest.iterationPoints = .ok nest.iterations :=
  trace_eq_ok (visit_eq_forM hpos hdef hinv)

/-- The iterations are listed exactly if every bound on the way is defined and every tuple stands
for an iteration. -/
theorem iterationPoints_eq_ok_iff (hpos : nest.Forward) {ps : List Point} :
    nest.iterationPoints = .ok ps ↔ (nest.Defined ∧ nest.Inverts) ∧ nest.iterations = ps := by
  constructor
  · intro h
    obtain ⟨s', hs', -⟩ := Stateful.inspect_eq_ok.mp (iterationPoints_eq_inspect nest ▸ h)
    obtain ⟨hdef, hinv⟩ := defined_and_inverts_of_final hpos hs'
    rw [iterationPoints_eq_ok hpos hdef hinv] at h
    cases h
    exact ⟨⟨hdef, hinv⟩, rfl⟩
  · rintro ⟨⟨hdef, hinv⟩, rfl⟩
    exact iterationPoints_eq_ok hpos hdef hinv

end Nest

end AffineLoops
