import Mathlib.Data.List.Perm.Basic
import Mathlib.Order.Lattice
/-!
# Orders of dependent actions

Two orders of the same actions have the same effect if they agree on all pairs of actions that
conflict. The first action of one order conflicts with none of those before it in the other, so it
can be moved past all of them.

## Main definitions

- `Commutes` — two actions have the same effect in both orders
- `foldlM_eq_of_perm` — orders that agree on conflicts are equivalent
- `foldlM_eq_of_ranks` — orders that go through the same ranks are equivalent
-/

namespace AffineLoops

variable {α β : Type} {step : β → α → Option β}

/-- From a valid state two actions lead to the same state in both orders, or fail in both. -/
def Commutes (step : β → α → Option β) (valid : β → Prop) (a b : α) : Prop :=
  ∀ s, valid s → (step s a >>= fun s' => step s' b) = step s b >>= fun s' => step s' a

/-- An action that commutes with all those before it can be done first. -/
theorem foldlM_move {valid : β → Prop}
    (hvalid : ∀ s a s', valid s → step s a = some s' → valid s') {a : α}
    {before after : List α} (hcomm : ∀ b ∈ before, Commutes step valid b a) {s : β} (hs : valid s) :
    (before ++ a :: after).foldlM step s = (a :: (before ++ after)).foldlM step s := by
  induction before generalizing s with
  | nil => rfl
  | cons b before ih =>
    have hmoved : ∀ s', step s b = some s' →
        (before ++ a :: after).foldlM step s' = (a :: (before ++ after)).foldlM step s' :=
      fun s' hs' => ih (fun c hc => hcomm c (List.mem_cons_of_mem b hc)) (hvalid s b s' hs hs')
    calc (b :: before ++ a :: after).foldlM step s
        = step s b >>= fun s' => (before ++ a :: after).foldlM step s' := by
          rw [List.cons_append, List.foldlM_cons]
      _ = step s b >>= fun s' => step s' a >>= fun t => (before ++ after).foldlM step t := by
          cases hb : step s b with
          | none => rfl
          | some s' =>
            change (before ++ a :: after).foldlM step s' = _
            rw [hmoved s' hb, List.foldlM_cons]
            rfl
      _ = step s a >>= fun s' => step s' b >>= fun t => (before ++ after).foldlM step t := by
          rw [← bind_assoc, ← bind_assoc, hcomm b List.mem_cons_self s hs]
      _ = (a :: (b :: before ++ after)).foldlM step s := by
          rw [List.foldlM_cons]
          rfl

/-- Two orders of the same actions that both put conflicting actions in the order `r` have the same
effect. -/
theorem foldlM_eq_of_perm (valid : β → Prop) (conflict r : α → α → Prop) {xs ys : List α}
    (hvalid : ∀ s a s', valid s → step s a = some s' → valid s')
    (hsymm : ∀ a b, conflict a b → conflict b a) (hasymm : ∀ a b, r a b → ¬r b a)
    (hcomm : ∀ a ∈ xs, ∀ b ∈ xs, ¬conflict a b → Commutes step valid a b)
    (hperm : xs.Perm ys) (hx : xs.Pairwise fun a b => conflict a b → r a b)
    (hy : ys.Pairwise fun a b => conflict a b → r a b) {s : β} (hs : valid s) :
    xs.foldlM step s = ys.foldlM step s := by
  -- on the first order; its first action is looked up in the second one and moved to the front
  induction xs generalizing ys s with
  | nil => rw [List.nil_perm.mp hperm]
  | cons a xs ih =>
    obtain ⟨before, after, rfl⟩ := List.append_of_mem (hperm.subset List.mem_cons_self)
    obtain ⟨hfirst, hx⟩ := List.pairwise_cons.mp hx
    have hrest : xs.Perm (before ++ after) :=
      (hperm.trans List.perm_middle).cons_inv
    have hpast : ∀ b ∈ before, Commutes step valid b a := by
      intro b hb
      have hmem : b ∈ xs := hrest.symm.subset (List.mem_append_left after hb)
      refine hcomm b (List.mem_cons_of_mem a hmem) a List.mem_cons_self fun hconflict => ?_
      have hba : r b a := (List.pairwise_append.mp hy).2.2 b hb a List.mem_cons_self hconflict
      exact hasymm b a hba (hfirst b hmem (hsymm b a hconflict))
    have hkeep : (before ++ after).Sublist (before ++ a :: after) :=
      List.Sublist.append_left (List.sublist_cons_self a after) before
    rw [foldlM_move hvalid hpast hs, List.foldlM_cons, List.foldlM_cons]
    cases ha : step s a with
    | none => rfl
    | some s' =>
      exact ih (fun b hb c hc => hcomm b (List.mem_cons_of_mem a hb) c (List.mem_cons_of_mem a hc))
        hrest hx (hy.sublist hkeep) (hvalid s a s' hs ha)

/-- Actions of one rank can change places. If the ranks never decrease along an order, and conflicting
actions have different ranks, every order of the same actions with the same sequence of ranks has the
same effect. -/
theorem foldlM_eq_of_ranks {γ : Type} [LinearOrder γ] (rank : α → γ) (valid : β → Prop)
    (conflict : α → α → Prop) {xs ys : List α}
    (hvalid : ∀ s a s', valid s → step s a = some s' → valid s')
    (hsymm : ∀ a b, conflict a b → conflict b a)
    (hcomm : ∀ a ∈ xs, ∀ b ∈ xs, ¬conflict a b → Commutes step valid a b)
    (hconflict : xs.Pairwise fun a b => conflict a b → rank a ≠ rank b)
    (hsorted : (xs.map rank).Pairwise (· ≤ ·)) (hperm : ys.Perm xs)
    (hranks : ys.map rank = xs.map rank) {s : β} (hs : valid s) :
    ys.foldlM step s = xs.foldlM step s := by
  have hordered : ∀ zs : List α, zs.Perm xs → zs.map rank = xs.map rank →
      zs.Pairwise fun a b => conflict a b → rank a < rank b := by
    intro zs hzs hmap
    have hle : zs.Pairwise fun a b => rank a ≤ rank b := List.pairwise_map.mp (hmap ▸ hsorted)
    have hne : zs.Pairwise fun a b => conflict a b → rank a ≠ rank b :=
      hconflict.perm hzs.symm fun hab hba => (hab (hsymm _ _ hba)).symm
    exact hle.imp₂ (fun _ _ hab hneq hc => lt_of_le_of_ne hab (hneq hc)) hne
  exact (foldlM_eq_of_perm valid conflict (fun a b => rank a < rank b) hvalid hsymm
    (fun _ _ hab => lt_asymm hab) hcomm hperm.symm (hordered xs (.refl xs) rfl)
    (hordered ys hperm hranks) hs).symm

end AffineLoops
