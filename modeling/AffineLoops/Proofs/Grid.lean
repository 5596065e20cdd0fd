import AffineLoops.Grid.Random
import AffineLoops.Proofs.Domain
/-!
# Cells of grids

A grid has a cell for every point of its shape and for no other point. What was written to a cell is
what is read from it, as long as there are as many cells as points.

## Main definitions

- `Grid.exists_get` — the points that can be read
- `Grid.get_ofFn`, `Grid.get_zeros` — the cells of a constructed grid
- `Grid.get_setIndex_self` — a written cell
- `Grid.get_eq_ok_iff` — the cells are stored in the order of the points
- `Grid.exists_random` — random grids exist
-/

namespace AffineLoops

namespace Grid

variable {g g' : Grid} {shape : Domain} {p : Point} {k : ℕ}

theorem exists_get (h : g.shape.contains p) : ∃ v, g.get p = .ok v := by
  obtain ⟨k, hk⟩ := Domain.exists_linearIndex?_iff.mpr h
  rw [get, hk]
  exact ⟨_, rfl⟩

theorem set_eq_ok_iff {v : Cell} :
    g.set p v = .ok g' ↔ ∃ k, g.shape.linearIndex? p = some k ∧ g.setIndex k v = g' := by
  rw [set]
  cases g.shape.linearIndex? p <;> simp

theorem set_eq_error_iff {v : Cell} {e : DomainError} :
    g.set p v = .error e ↔ ¬g.shape.contains p ∧ g.outside p = e := by
  rw [← Domain.linearIndex?_eq_none, set]
  cases g.shape.linearIndex? p <;> simp

theorem index_lt (hd : g.shape.WellFormed) (hk : g.shape.linearIndex? p = some k) :
    k < g.shape.size := by
  obtain ⟨hlt, -⟩ := List.getElem?_eq_some_iff.mp ((Domain.linearIndex?_eq_some hd).mp hk)
  rwa [← Domain.length_points hd]

theorem ofFn_wellFormed (hd : shape.WellFormed) (f : Point → Cell) : (ofFn shape f).WellFormed := by
  show ((shape.points.map f).toArray).size = shape.size
  simp [Domain.length_points hd]

theorem get_ofFn (hd : shape.WellFormed) (f : Point → Cell) (hp : shape.contains p) :
    (ofFn shape f).get p = .ok (f p) := by
  obtain ⟨k, hk⟩ := Domain.exists_linearIndex?_iff.mpr hp
  have hpoint := (Domain.linearIndex?_eq_some hd).mp hk
  simp [get, ofFn, hk, hpoint, Array.getD_eq_getD_getElem?]

theorem zeros_wellFormed (shape : Domain) : (zeros shape).WellFormed :=
  Array.size_replicate

theorem get_zeros (hp : shape.contains p) : (zeros shape).get p = .ok 0 := by
  obtain ⟨k, hk⟩ := Domain.exists_linearIndex?_iff.mpr hp
  simp only [get, zeros, hk, Array.getD_eq_getD_getElem?, Array.getElem?_replicate]
  split <;> rfl

@[simp] theorem shape_setIndex (g : Grid) (k : ℕ) (v : Cell) : (g.setIndex k v).shape = g.shape := rfl

theorem setIndex_wellFormed (h : g.WellFormed) (k : ℕ) (v : Cell) : (g.setIndex k v).WellFormed := by
  show (g.cells.setIfInBounds k v).size = g.shape.size
  rw [Array.size_setIfInBounds]
  exact h

theorem get_setIndex_self (hd : g.shape.WellFormed) (h : g.WellFormed)
    (hk : g.shape.linearIndex? p = some k) (v : Cell) : (g.setIndex k v).get p = .ok v := by
  have hin : k < g.cells.size := by
    rw [show g.cells.size = g.shape.size from h]
    exact index_lt hd hk
  simp [get, setIndex, hk, Array.getD_eq_getD_getElem?, hin]

theorem get_setIndex_of_ne {v : Cell} (h : g.shape.linearIndex? p ≠ some k) :
    (g.setIndex k v).get p = g.get p := by
  rw [get, get, shape_setIndex]
  cases hp : g.shape.linearIndex? p with
  | none => rfl
  | some j =>
    have hne : k ≠ j := fun heq => h (heq ▸ hp)
    have hcell : (g.cells.setIfInBounds k v)[j]? = g.cells[j]? := Array.getElem?_setIfInBounds_ne hne
    simp only [setIndex, Array.getD_eq_getD_getElem?, hcell]

theorem setIndex_comm {j : ℕ} {v w : Cell} (h : j ≠ k) :
    (g.setIndex j v).setIndex k w = (g.setIndex k w).setIndex j v := by
  simp only [setIndex]
  rw [Array.setIfInBounds_comm v w h]

/-- The cells are stored in the order of the points. -/
theorem get_eq_ok_iff (hd : g.shape.WellFormed) (hg : g.WellFormed) {v : Cell} :
    g.get p = .ok v ↔ ∃ k : ℕ, g.shape.points[k]? = some p ∧ g.cells.toList[k]? = some v := by
  simp only [Array.getElem?_toList]
  constructor
  · intro hget
    rw [get] at hget
    cases hk : g.shape.linearIndex? p with
    | none =>
      rw [hk] at hget
      cases hget
    | some k =>
      rw [hk] at hget
      have hin : k < g.cells.size := hg ▸ index_lt hd hk
      refine ⟨k, (Domain.linearIndex?_eq_some hd).mp hk, ?_⟩
      simpa [Array.getD_eq_getD_getElem?, hin] using hget
  · rintro ⟨k, hk, hv⟩
    rw [get, (Domain.linearIndex?_eq_some hd).mpr hk]
    simp [Array.getD_eq_getD_getElem?, hv]

theorem get_of_not_contains (hp : ¬g.shape.contains p) : g.get p = .error (g.outside p) := by
  rw [get, Domain.linearIndex?_eq_none.mpr hp]

end Grid

theorem Keystream.size_drawCells (size n : ℕ) (cells : Array Cell) (k : Keystream) :
    (drawCells size n cells k).size = cells.size + n := by
  induction n generalizing cells k with
  | zero => rfl
  | succ n ih =>
    rw [drawCells, ih, Array.size_push]
    omega

/-- For every maximum that is not negative there is a random grid of every shape. -/
theorem Grid.exists_random (shape : Domain) (seed : UInt64) {maximum : Cell} (h : ¬maximum < 0) :
    ∃ g, random shape seed maximum = .ok g ∧ g.shape = shape ∧ g.WellFormed := by
  rw [random, if_neg h]
  refine ⟨_, rfl, rfl, ?_⟩
  show (Keystream.drawCells _ shape.size _ _).size = shape.size
  rw [Keystream.size_drawCells]
  exact Nat.zero_add _

end AffineLoops
