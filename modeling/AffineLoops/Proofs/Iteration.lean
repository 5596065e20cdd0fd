import Mathlib.Data.List.Induction
/-!
# Loops over a range or a list

The eliminations go through the rows or columns of a matrix in order, a run of a rule goes through
the iterations of a nest. What holds after a loop follows from what one turn preserves, with the
turns that are over as a parameter of the invariant.

## Main definitions

- `foldl_range_induction` — loops that always run to their end
- `foldlM_range_induction` — loops that may stop early
- `foldlM_prefix_induction` — loops over a list in which no turn stops
-/

namespace AffineLoops

variable {β : Type}

/-- An invariant that every turn carries from `k` to `k + 1` holds at the end of the loop. -/
theorem foldl_range_induction {P : ℕ → β → Prop} {f : β → ℕ → β} {b : β} (n : ℕ) (zero : P 0 b)
    (step : ∀ k < n, ∀ x, P k x → P (k + 1) (f x k)) : P n ((List.range n).foldl f b) := by
  induction n with
  | zero => exact zero
  | succ n ih =>
    rw [List.range_succ, List.foldl_append]
    exact step n (by omega) _ (ih fun k hk => step k (by omega))

/-- A loop ends with its invariant, unless a turn stopped it, which only happens if `Q` holds. -/
theorem foldlM_range_induction {P : ℕ → β → Prop} {Q : Prop} {f : β → ℕ → Option β} {b : β} (n : ℕ)
    (zero : P 0 b)
    (step : ∀ k < n, ∀ x, P k x → (∃ y, f x k = some y ∧ P (k + 1) y) ∨ f x k = none ∧ Q) :
    (∃ y, (List.range n).foldlM f b = some y ∧ P n y) ∨ (List.range n).foldlM f b = none ∧ Q := by
  induction n with
  | zero => exact Or.inl ⟨b, rfl, zero⟩
  | succ n ih =>
    rw [List.range_succ, List.foldlM_append]
    rcases ih fun k hk => step k (by omega) with ⟨x, hx, hP⟩ | ⟨hnone, hQ⟩
    · rw [hx]
      rcases step n (by omega) x hP with ⟨y, hy, hP'⟩ | ⟨hnone, hQ⟩
      · exact Or.inl ⟨y, by simp [hy], hP'⟩
      · exact Or.inr ⟨by simp [hnone], hQ⟩
    · exact Or.inr ⟨by simp [hnone], hQ⟩

/-- A loop over a list runs to its end if no turn stops that finds the invariant. -/
theorem foldlM_prefix_induction {α : Type} {P : List α → β → Prop} {f : β → α → Option β} {b : β}
    (l : List α) (nil : P [] b)
    (step : ∀ before a after, l = before ++ a :: after → ∀ x, P before x →
      ∃ y, f x a = some y ∧ P (before ++ [a]) y) : ∃ y, l.foldlM f b = some y ∧ P l y := by
  induction l using List.reverseRecOn with
  | nil => exact ⟨b, rfl, nil⟩
  | append_singleton l a ih =>
    obtain ⟨x, hx, hP⟩ := ih fun before c after heq =>
      step before c (after ++ [a]) (by rw [heq, List.append_assoc, List.cons_append])
    obtain ⟨y, hy, hP'⟩ := step l a [] rfl x hP
    exact ⟨y, by simp [hx, hy], hP'⟩

end AffineLoops
