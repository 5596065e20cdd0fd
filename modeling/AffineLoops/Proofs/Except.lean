import AffineLoops.Error
import Mathlib.Data.List.Forall2
/-!
# Computations that can fail

A sequence of two computations succeeds when both do, and fails with the first error. A list of
computations succeeds when each of them does. Inside a computation with errors of all kinds, one with
errors of a single kind succeeds when it does by itself.
-/

namespace AffineLoops.Except

variable {ε α β : Type} {x : Except ε α} {f : α → Except ε β}

@[simp] theorem bind_ok (a : α) (f : α → Except ε β) : (Except.ok a >>= f) = f a := rfl

theorem bind_eq_ok {b : β} : x >>= f = .ok b ↔ ∃ a, x = .ok a ∧ f a = .ok b := by
  cases x with
  | error e =>
    constructor
    · intro h
      cases h
    · rintro ⟨a, ha, -⟩
      cases ha
  | ok a =>
    constructor
    · intro h
      exact ⟨a, rfl, h⟩
    · rintro ⟨a', ha, h⟩
      cases ha
      exact h

theorem bind_eq_error {e : ε} :
    x >>= f = .error e ↔ x = .error e ∨ ∃ a, x = .ok a ∧ f a = .error e := by
  cases x with
  | error e' =>
    constructor
    · intro h
      cases h
      exact Or.inl rfl
    · rintro (h | ⟨a, ha, -⟩)
      · cases h
        rfl
      · cases ha
  | ok a =>
    constructor
    · intro h
      exact Or.inr ⟨a, rfl, h⟩
    · rintro (h | ⟨a', ha, h⟩)
      · cases h
      · cases ha
        exact h

/-- What a test finds in the result of a computation that succeeds. -/
theorem exists_of_any_toOption {P : α → Prop} [DecidablePred P]
    (h : x.toOption.any fun a => decide (P a)) : ∃ a, x = .ok a ∧ P a := by
  cases x with
  | error e => cases h
  | ok a => exact ⟨a, rfl, of_decide_eq_true h⟩

theorem mapM_eq_ok {l : List α} {bs : List β} :
    l.mapM f = .ok bs ↔ List.Forall₂ (fun a b => f a = .ok b) l bs := by
  induction l generalizing bs with
  | nil =>
    rw [List.mapM_nil, List.forall₂_nil_left_iff]
    exact ⟨fun h => by cases h; rfl, fun h => by rw [h]; rfl⟩
  | cons a l ih =>
    simp only [List.mapM_cons, bind_eq_ok, List.forall₂_cons_left_iff, ih]
    constructor
    · rintro ⟨b, hb, bs', hrest, h⟩
      cases h
      exact ⟨b, bs', hb, hrest, rfl⟩
    · rintro ⟨b, bs', hb, hrest, rfl⟩
      exact ⟨b, hb, bs', hrest, rfl⟩

/-- A list of computations fails with the first error among them. -/
theorem mapM_eq_error {l : List α} {e : ε} : l.mapM f = .error e ↔
    ∃ (i : ℕ) (a : α), l[i]? = some a ∧ (∀ k < i, ∀ a', l[k]? = some a' → ∃ b, f a' = .ok b) ∧
      f a = .error e := by
  induction l with
  | nil => exact ⟨nofun, fun ⟨i, a, ha, _⟩ => by simp at ha⟩
  | cons x l ih =>
    rw [List.mapM_cons, bind_eq_error]
    constructor
    · rintro (hx | ⟨b, hb, hrest⟩)
      · exact ⟨0, x, rfl, fun k hk => absurd hk (Nat.not_lt_zero k), hx⟩
      · rcases bind_eq_error.mp hrest with hl | ⟨bs, -, hpure⟩
        · obtain ⟨i, a, ha, hbefore, herr⟩ := ih.mp hl
          refine ⟨i + 1, a, ha, fun k hk a' ha' => ?_, herr⟩
          cases k with
          | zero =>
            cases ha'
            exact ⟨b, hb⟩
          | succ k => exact hbefore k (by omega) a' ha'
        · cases hpure
    · rintro ⟨i, a, ha, hbefore, herr⟩
      cases i with
      | zero =>
        cases ha
        exact Or.inl herr
      | succ i =>
        obtain ⟨b, hb⟩ := hbefore 0 (by omega) x rfl
        refine Or.inr ⟨b, hb, bind_eq_error.mpr (Or.inl (ih.mpr ⟨i, a, ha, fun k hk => ?_, herr⟩))⟩
        exact hbefore (k + 1) (by omega)

theorem mapM_range_eq_error {n : ℕ} {f : ℕ → Except ε β} {e : ε} : (List.range n).mapM f = .error e ↔
    ∃ i < n, (∀ k < i, ∃ b, f k = .ok b) ∧ f i = .error e := by
  have hget : ∀ i a : ℕ, (List.range n)[i]? = some a ↔ i < n ∧ i = a := by
    intro i a
    simp [List.getElem?_eq_some_iff]
  simp only [mapM_eq_error, hget]
  constructor
  · rintro ⟨i, a, ⟨hi, heq⟩, hbefore, herr⟩
    subst heq
    exact ⟨i, hi, fun k hk => hbefore k hk k ⟨Nat.lt_trans hk hi, rfl⟩, herr⟩
  · rintro ⟨i, hi, hbefore, herr⟩
    refine ⟨i, i, ⟨hi, rfl⟩, fun k hk a' ha' => ?_, herr⟩
    obtain ⟨-, rfl⟩ := ha'
    exact hbefore k hk

theorem forM_eq_ok {l : List α} {f : α → Except ε Unit} :
    l.forM f = .ok () ↔ ∀ a ∈ l, f a = .ok () := by
  induction l with
  | nil => simp [List.forM, pure, Except.pure]
  | cons a l ih =>
    show (f a >>= fun _ => l.forM f) = _ ↔ _
    rw [bind_eq_ok, List.forall_mem_cons, ← ih]
    constructor
    · rintro ⟨⟨⟩, ha, hrest⟩
      exact ⟨ha, hrest⟩
    · rintro ⟨ha, hrest⟩
      exact ⟨(), ha, hrest⟩

/-- A loop in which no turn fails is a loop without failures. -/
theorem foldlM_eq_ok {β : Type} {l : List α} {f : β → α → Except ε β} {g : β → α → β}
    (h : ∀ b, ∀ a ∈ l, f b a = .ok (g b a)) (b : β) : l.foldlM f b = .ok (l.foldl g b) := by
  induction l generalizing b with
  | nil => rfl
  | cons a l ih =>
    rw [List.foldlM_cons, h b a List.mem_cons_self, bind_ok, List.foldl_cons]
    exact ih (fun b a' ha' => h b a' (List.mem_cons_of_mem a ha')) _

/-- A loop that fails does so at one of its turns. -/
theorem exists_of_foldlM_eq_error {β : Type} {l : List α} {f : β → α → Except ε β} {b : β} {e : ε}
    (h : l.foldlM f b = .error e) : ∃ a ∈ l, ∃ b', f b' a = .error e := by
  induction l generalizing b with
  | nil => cases h
  | cons a l ih =>
    rw [List.foldlM_cons] at h
    rcases bind_eq_error.mp h with ha | ⟨b', -, hrest⟩
    · exact ⟨a, List.mem_cons_self, b, ha⟩
    · obtain ⟨a', ha', hfail⟩ := ih hrest
      exact ⟨a', List.mem_cons_of_mem a ha', hfail⟩

theorem exists_of_foldlM_eq_ok {β : Type} {l : List α} {f : β → α → Except ε β} {b b' : β}
    (h : l.foldlM f b = .ok b') : ∀ a ∈ l, ∃ s s', f s a = .ok s' := by
  induction l generalizing b with
  | nil => exact fun a ha => absurd ha List.not_mem_nil
  | cons a l ih =>
    rw [List.foldlM_cons] at h
    obtain ⟨s, hs, hrest⟩ := bind_eq_ok.mp h
    exact List.forall_mem_cons.mpr ⟨⟨b, s, hs⟩, ih hrest⟩

/-- Renaming the errors changes no success. -/
theorem mapError_eq_ok {ε' : Type} {g : ε → ε'} {a : α} {x : Except ε α} :
    x.mapError g = .ok a ↔ x = .ok a := by
  cases x <;> simp [Except.mapError]

theorem mapError_eq_error {ε' : Type} {g : ε → ε'} {e' : ε'} {x : Except ε α} :
    x.mapError g = .error e' ↔ ∃ e, x = .error e ∧ g e = e' := by
  cases x <;> simp [Except.mapError]

section Lift

variable {a : α}

theorem liftM_matrix_eq_ok {x : Except MatrixError α} :
    (liftM x : Except Error α) = .ok a ↔ x = .ok a :=
  mapError_eq_ok

theorem liftM_domain_eq_ok {x : Except DomainError α} :
    (liftM x : Except Error α) = .ok a ↔ x = .ok a :=
  mapError_eq_ok

theorem liftM_derivation_eq_ok {x : Except DerivationError α} :
    (liftM x : Except Error α) = .ok a ↔ x = .ok a :=
  mapError_eq_ok

theorem liftM_fault_eq_ok {x : Except Fault α} :
    (liftM x : Except Error α) = .ok a ↔ x = .ok a :=
  mapError_eq_ok

end Lift

end AffineLoops.Except
