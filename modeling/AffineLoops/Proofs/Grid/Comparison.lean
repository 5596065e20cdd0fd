import AffineLoops.Proofs.Grid
/-!
# Comparing grids

Two grids of one shape are equal if they have the same content in every cell. Their disagreements are
found by going through the points and the cells side by side, which pairs every point with its own
cells, so they are listed in the order of the points and each of them is listed once.

## Main definitions

- `Grid.Comparable` — one shape, and one cell per point in both grids
- `Grid.Comparable.eq_iff` — when grids are equal
- `Grid.Comparable.exists_mem_iff`, `Grid.Comparable.mem_iff`, `Grid.Comparable.pairwise` — where they
  differ
-/

namespace AffineLoops.Grid

variable {g g' : Grid} {p : Point}

theorem cellDiff?_eq_some {l r : Cell} {c : CellDiff} :
    cellDiff? p l r = some c ↔ l ≠ r ∧ ⟨p, l, r⟩ = c := by
  unfold cellDiff?
  split
  · next heq => simp [heq]
  · next hne => simp [hne]

/-- The grids have one shape, and one cell for every point of it. -/
structure Comparable (g g' : Grid) : Prop where
  domain : g.shape.WellFormed
  left : g.WellFormed
  right : g'.WellFormed
  shape_eq : g'.shape = g.shape

namespace Comparable

theorem size_eq (h : g.Comparable g') : g'.cells.size = g.cells.size := by
  rw [h.right, h.left, h.shape_eq]

/-- What is stored in the second grid, by the points of the first one. -/
theorem get_right_eq_ok_iff (h : g.Comparable g') {v : Cell} :
    g'.get p = .ok v ↔ ∃ k : ℕ, g.shape.points[k]? = some p ∧ g'.cells.toList[k]? = some v := by
  rw [get_eq_ok_iff (h.shape_eq ▸ h.domain) h.right, h.shape_eq]

/-! ### Equality -/

theorem cells_eq (h : g.Comparable g') (hget : ∀ p, g.shape.contains p → g.get p = g'.get p) :
    g.cells = g'.cells := by
  refine Array.ext h.size_eq.symm fun k hk hk' => ?_
  have hpoints : k < g.shape.points.length := by rwa [Domain.length_points h.domain, ← h.left]
  -- the cell at a position is the cell of the point at this position
  obtain ⟨p, hp⟩ : ∃ p, g.shape.points[k]? = some p := ⟨_, List.getElem?_eq_getElem hpoints⟩
  have hcell : g.get p = .ok g.cells[k] :=
    (get_eq_ok_iff h.domain h.left).mpr ⟨k, hp, by simp [hk]⟩
  have hcell' : g'.get p = .ok g'.cells[k] := h.get_right_eq_ok_iff.mpr ⟨k, hp, by simp [hk']⟩
  rw [hget p ((Domain.mem_points h.domain).mp (List.mem_of_getElem? hp)), hcell'] at hcell
  exact (Except.ok.inj hcell).symm

/-- Grids are equal if they have the same content in every cell. -/
theorem eq_iff (h : g.Comparable g') :
    g = g' ↔ ∀ p, g.shape.contains p → g.get p = g'.get p := by
  constructor
  · rintro rfl p -
    rfl
  · intro hget
    have hcells := h.cells_eq hget
    have hshape := h.shape_eq
    obtain ⟨shape, cells⟩ := g
    obtain ⟨shape', cells'⟩ := g'
    cases hshape
    cases hcells
    rfl

/-- Grids can only disagree in a cell that both of them have. -/
theorem get_ne_get_iff (h : g.Comparable g') :
    g.get p ≠ g'.get p ↔ ∃ v w, g.get p = .ok v ∧ g'.get p = .ok w ∧ v ≠ w := by
  constructor
  · intro hne
    by_cases hp : g.shape.contains p
    · obtain ⟨v, hv⟩ := exists_get hp
      obtain ⟨w, hw⟩ := exists_get (g := g') (h.shape_eq ▸ hp)
      refine ⟨v, w, hv, hw, fun heq => hne ?_⟩
      rw [hv, hw, heq]
    · refine absurd ?_ hne
      rw [get_of_not_contains hp, get_of_not_contains (h.shape_eq ▸ hp), outside, outside, h.shape_eq]
  · rintro ⟨v, w, hv, hw, hne⟩ heq
    rw [hv, hw] at heq
    exact hne (Except.ok.inj heq)

/-! ### Disagreements -/

/-- Going through the points and the cells side by side pairs every point with its own cells. -/
theorem mem_zip_iff (h : g.Comparable g') {l r : Cell} :
    (p, l, r) ∈ g.shape.points.zip (g.cells.toList.zip g'.cells.toList) ↔
      g.get p = .ok l ∧ g'.get p = .ok r := by
  rw [get_eq_ok_iff h.domain h.left, h.get_right_eq_ok_iff]
  simp only [List.mem_iff_getElem? (l := g.shape.points.zip _), List.getElem?_zip_eq_some]
  constructor
  · rintro ⟨k, hp, hl, hr⟩
    exact ⟨⟨k, hp, hl⟩, ⟨k, hp, hr⟩⟩
  · rintro ⟨⟨k, hp, hl⟩, ⟨k', hp', hr⟩⟩
    have hk := (Domain.linearIndex?_eq_some h.domain).mpr hp
    have hk' := (Domain.linearIndex?_eq_some h.domain).mpr hp'
    obtain rfl : k = k' := Option.some_inj.mp (hk.symm.trans hk')
    exact ⟨k, hp, hl, hr⟩

theorem map_fst_zip (h : g.Comparable g') :
    (g.shape.points.zip (g.cells.toList.zip g'.cells.toList)).map Prod.fst = g.shape.points := by
  have hpoints : g.shape.points.length = g.cells.size :=
    (Domain.length_points h.domain).trans h.left.symm
  refine List.map_fst_zip ?_
  simp [hpoints, h.size_eq]

variable {diffs : List CellDiff}

theorem exists_diff? (h : g.Comparable g') : ∃ diffs, g.diff? g' = some diffs :=
  ⟨_, if_pos h.shape_eq.symm⟩

/-- A disagreement is listed with the contents of both cells. -/
theorem mem_iff (h : g.Comparable g') (hdiffs : g.diff? g' = some diffs) {c : CellDiff} :
    c ∈ diffs ↔ g.get c.point = .ok c.left ∧ g'.get c.point = .ok c.right ∧ c.left ≠ c.right := by
  rw [diff?, if_pos h.shape_eq.symm] at hdiffs
  cases hdiffs
  simp only [List.mem_filterMap, Prod.exists, cellDiff?_eq_some, h.mem_zip_iff]
  constructor
  · rintro ⟨p, l, r, ⟨hl, hr⟩, hne, rfl⟩
    exact ⟨hl, hr, hne⟩
  · rintro ⟨hl, hr, hne⟩
    exact ⟨c.point, c.left, c.right, ⟨hl, hr⟩, hne, rfl⟩

/-- The disagreements are listed in the order of their points. -/
theorem pairwise (h : g.Comparable g') (hdiffs : g.diff? g' = some diffs) :
    (diffs.map CellDiff.point).Pairwise (· < ·) := by
  rw [diff?, if_pos h.shape_eq.symm] at hdiffs
  cases hdiffs
  have hsorted := Domain.pairwise_points h.domain
  rw [← h.map_fst_zip, List.pairwise_map] at hsorted
  rw [List.pairwise_map]
  refine hsorted.filterMap _ ?_
  rintro ⟨p, l, r⟩ ⟨p', l', r'⟩ hlt c hc c' hc'
  obtain ⟨-, rfl⟩ := cellDiff?_eq_some.mp hc
  obtain ⟨-, rfl⟩ := cellDiff?_eq_some.mp hc'
  exact hlt

/-- The points that are listed are those at which the grids disagree. -/
theorem exists_mem_iff (h : g.Comparable g') (hdiffs : g.diff? g' = some diffs) :
    (∃ c ∈ diffs, c.point = p) ↔ g.get p ≠ g'.get p := by
  rw [h.get_ne_get_iff]
  constructor
  · rintro ⟨c, hc, rfl⟩
    exact ⟨c.left, c.right, (h.mem_iff hdiffs).mp hc⟩
  · rintro ⟨v, w, hvw⟩
    exact ⟨⟨p, v, w⟩, (h.mem_iff hdiffs).mpr hvw, rfl⟩

/-- Grids that differ disagree somewhere. -/
theorem ne_nil (h : g.Comparable g') (hdiffs : g.diff? g' = some diffs) (hne : g ≠ g') :
    diffs ≠ [] := by
  rw [Ne, h.eq_iff] at hne
  obtain ⟨p, hp⟩ := not_forall.mp hne
  obtain ⟨c, hc, -⟩ := (h.exists_mem_iff hdiffs).mpr (Classical.not_imp.mp hp).2
  exact List.ne_nil_of_mem hc

end Comparable

end AffineLoops.Grid
