import AffineLoops.Rule.Update
import Mathlib.Init
/-!
# Stateful computations that can fail

What a stateful computation leaves behind when it does not fail. A sequence of computations leaves
behind what the last one makes of the results of the others, so an iteration over a list is a fold
that stops at the first failure.

## Main definitions

- `Stateful.final` — the state after a computation that did not fail
- `Stateful.final_forM` — an iteration as a fold over the states
- `Stateful.error?`, `Stateful.exists_error_of_forM` — what a computation fails with
- `Stateful.run_forM_cases` — an iteration over steps that change nothing when they fail
- `Stateful.inspect` — a run, and a look at the state that it leaves behind
-/

namespace AffineLoops.Stateful

variable {σ α : Type} {x y : Stateful σ Unit} {s s' : σ}

/-- The state that a computation leaves behind, unless it fails. -/
def final (x : Stateful σ Unit) (s : σ) : Option σ :=
  match x.run.run s with
  | (.ok (), s') => some s'
  | (.error _, _) => none

theorem final_eq_some : x.final s = some s' ↔ x.run.run s = (.ok (), s') := by
  unfold final
  generalize x.run.run s = outcome
  obtain ⟨result, state⟩ := outcome
  cases result with
  | error e =>
    constructor
    · intro h
      cases h
    · intro h
      cases h
  | ok u =>
    constructor
    · intro h
      cases h
      rfl
    · intro h
      cases h
      rfl

/-- A sequence runs its second part in the state that the first one leaves behind, unless that fails. -/
theorem run_bind : (x >>= fun _ => y).run.run s =
    match x.run.run s with
    | (.ok (), s') => y.run.run s'
    | (.error e, s') => (.error e, s') := by
  rw [ExceptT.run_bind, StateT.run_bind]
  generalize x.run.run s = outcome
  obtain ⟨result, state⟩ := outcome
  cases result <;> rfl

/-- A sequence continues with the state that its first part leaves behind. -/
theorem final_bind : (x >>= fun _ => y).final s = x.final s >>= fun s' => y.final s' := by
  unfold final
  rw [run_bind]
  generalize x.run.run s = outcome
  obtain ⟨result, state⟩ := outcome
  cases result <;> rfl

/-- An iteration threads the state through the list. -/
theorem final_forM (l : List α) (f : α → Stateful σ Unit) :
    (forM l f).final s = l.foldlM (fun s a => (f a).final s) s := by
  induction l generalizing s with
  | nil => rfl
  | cons a l ih =>
    rw [List.forM_cons, final_bind, List.foldlM_cons]
    exact bind_congr fun s' => ih

/-- An iteration that does not fail does not fail at any element. -/
theorem exists_final_of_forM {l : List α} {f : α → Stateful σ Unit}
    (h : (forM l f).final s = some s') : ∀ a ∈ l, ∃ t t', (f a).final t = some t' := by
  induction l generalizing s with
  | nil => exact fun a ha => absurd ha List.not_mem_nil
  | cons b l ih =>
    rw [List.forM_cons, final_bind, Option.bind_eq_bind, Option.bind_eq_some_iff] at h
    obtain ⟨t, ht, hrest⟩ := h
    intro a ha
    rcases List.mem_cons.mp ha with rfl | ha
    · exact ⟨s, t, ht⟩
    · exact ih hrest a ha

/-- The error that a computation ends with, if it fails. -/
def error? (x : Stateful σ Unit) (s : σ) : Option Error :=
  match x.run.run s with
  | (.ok (), _) => none
  | (.error e, _) => some e

/-- A sequence fails like its first part, or like its second part after the first one. -/
theorem error?_bind {e : Error} (h : (x >>= fun _ => y).error? s = some e) :
    x.error? s = some e ∨ ∃ s', x.final s = some s' ∧ y.error? s' = some e := by
  unfold error? final at *
  rw [run_bind] at h
  generalize x.run.run s = outcome at h ⊢
  obtain ⟨result, state⟩ := outcome
  cases result with
  | error e' => exact Or.inl h
  | ok u => exact Or.inr ⟨state, rfl, h⟩

/-- An iteration that fails does so at one of the elements. -/
theorem exists_error_of_forM {l : List α} {f : α → Stateful σ Unit} {e : Error}
    (h : (forM l f).error? s = some e) : ∃ a ∈ l, ∃ t, (f a).error? t = some e := by
  induction l generalizing s with
  | nil => cases h
  | cons a l ih =>
    rw [List.forM_cons] at h
    rcases error?_bind h with ha | ⟨t, -, hrest⟩
    · exact ⟨a, List.mem_cons_self, s, ha⟩
    · obtain ⟨b, hb, hfail⟩ := ih hrest
      exact ⟨b, List.mem_cons_of_mem a hb, hfail⟩

/-- What a step comes to: its result is the next state, and an error leaves the state as it was. -/
def settle (s : σ) : Except Error σ → Except Error Unit × σ
  | .ok s' => (.ok (), s')
  | .error e => (.error e, s)

theorem final_of_settle {r : Except Error σ} (h : x.run.run s = settle s r) :
    x.final s = r.toOption := by
  rw [final, h]
  cases r <;> rfl

theorem error?_of_settle {r : Except Error σ} {e : Error} (h : x.run.run s = settle s r)
    (he : x.error? s = some e) : r = .error e := by
  rw [error?, h] at he
  cases r with
  | error e' =>
    cases he
    rfl
  | ok s' => cases he

/-- An iteration over steps that change nothing when they fail goes through all of them, or fails at the
first one that does, and leaves behind what the steps before have made of the state. -/
theorem run_forM_cases {f : α → Stateful σ Unit} {step : σ → α → Except Error σ}
    (hstep : ∀ s a, (f a).run.run s = settle s (step s a)) (l : List α) (s : σ) :
    (∃ s', l.foldlM step s = .ok s' ∧ (forM l f).run.run s = (.ok (), s')) ∨
      ∃ before a after e s', l = before ++ a :: after ∧ before.foldlM step s = .ok s' ∧
        step s' a = .error e ∧ (forM l f).run.run s = (.error e, s') := by
  induction l generalizing s with
  | nil => exact Or.inl ⟨s, rfl, rfl⟩
  | cons a l ih =>
    rw [List.forM_cons, run_bind, hstep, List.foldlM_cons]
    cases ha : step s a with
    | error e => exact Or.inr ⟨[], a, l, e, s, rfl, rfl, ha, rfl⟩
    | ok t =>
      rcases ih t with ⟨s', hfold, hrun⟩ | ⟨before, b, after, e, s', rfl, hfold, hfail, hrun⟩
      · exact Or.inl ⟨s', hfold, hrun⟩
      · refine Or.inr ⟨a :: before, b, after, e, s', rfl, ?_, hfail, hrun⟩
        rw [List.foldlM_cons, ha]
        exact hfold

/-- Runs a computation and looks at the state that it leaves behind. -/
def inspect (x : Stateful σ Unit) (s : σ) (look : σ → Except Error α) : Except Error α :=
  match x.run.run s with
  | (.ok (), s') => look s'
  | (.error e, _) => .error e

section Inspect

variable {look : σ → Except Error α}

theorem inspect_eq_ok {a : α} :
    x.inspect s look = .ok a ↔ ∃ s', x.final s = some s' ∧ look s' = .ok a := by
  unfold inspect final
  generalize x.run.run s = outcome
  obtain ⟨result, state⟩ := outcome
  cases result <;> simp

theorem inspect_eq_error {e : Error} :
    x.inspect s look = .error e ↔
      x.error? s = some e ∨ ∃ s', x.final s = some s' ∧ look s' = .error e := by
  unfold inspect error? final
  generalize x.run.run s = outcome
  obtain ⟨result, state⟩ := outcome
  cases result <;> simp

end Inspect

end AffineLoops.Stateful
