import AffineLoops.Matrix.Basic
/-!
# Pivot search

The eliminations divide by an entry of least nonzero magnitude. Which of several equal candidates
is taken decides the transforming matrices, so the search is fixed here: the first of them wins.

## Main definitions

- `leastMagnitude?` — the first position of least nonzero magnitude among some candidates
- `IntMatrix.leastAbs` — the least nonzero magnitude in the end of a row or column
- `IntMatrix.rowPivot?`, `IntMatrix.colPivot?` — that position in the end of a row or column that
  still holds two or more nonzero entries
-/

namespace AffineLoops

/-- The first candidate at which `f` has the least nonzero magnitude, if `f` is nonzero at any. -/
def leastMagnitude? (f : Nat → Int) : List Nat → Option Nat
  | [] => none
  | k :: rest =>
    match leastMagnitude? f rest with
    | none => if f k = 0 then none else some k
    | some best => if f k ≠ 0 ∧ (f k).natAbs ≤ (f best).natAbs then some k else some best

/-- Nothing is found only if there is nothing but zeros. -/
theorem leastMagnitude?_eq_none {f : Nat → Int} {candidates : List Nat}
    (h : leastMagnitude? f candidates = none) : ∀ k ∈ candidates, f k = 0 := by
  induction candidates with
  | nil => simp
  | cons a rest ih =>
    simp only [leastMagnitude?] at h
    split at h
    · next hrest =>
      have ha : f a = 0 := by
        by_cases ha : f a = 0
        · exact ha
        · simp [ha] at h
      intro k hk
      rcases List.mem_cons.mp hk with rfl | hk
      · exact ha
      · exact ih hrest k hk
    · split at h <;> simp at h

/-- The position found is a candidate, and no candidate has a smaller nonzero magnitude. -/
theorem leastMagnitude?_eq_some {f : Nat → Int} {candidates : List Nat} {c : Nat}
    (h : leastMagnitude? f candidates = some c) :
    c ∈ candidates ∧ f c ≠ 0 ∧ ∀ k ∈ candidates, f k ≠ 0 → (f c).natAbs ≤ (f k).natAbs := by
  induction candidates generalizing c with
  | nil => simp [leastMagnitude?] at h
  | cons a rest ih =>
    simp only [leastMagnitude?] at h
    split at h
    · next hrest =>
      have hzero := leastMagnitude?_eq_none hrest
      split at h
      · simp at h
      · next ha =>
        obtain rfl : a = c := by simpa using h
        refine ⟨List.mem_cons_self, ha, fun k hk hfk => ?_⟩
        rcases List.mem_cons.mp hk with rfl | hk
        · exact Nat.le_refl _
        · exact absurd (hzero k hk) hfk
    · next best hrest =>
      obtain ⟨hmem, hne, hleast⟩ := ih hrest
      split at h
      · next ha =>
        obtain rfl : a = c := by simpa using h
        refine ⟨List.mem_cons_self, ha.1, fun k hk hfk => ?_⟩
        rcases List.mem_cons.mp hk with rfl | hk
        · exact Nat.le_refl _
        · exact Nat.le_trans ha.2 (hleast k hk hfk)
      · next ha =>
        obtain rfl : best = c := by simpa using h
        refine ⟨List.mem_cons_of_mem _ hmem, hne, fun k hk hfk => ?_⟩
        rcases List.mem_cons.mp hk with rfl | hk
        · exact Nat.le_of_lt (Nat.lt_of_not_le fun hle => ha ⟨hfk, hle⟩)
        · exact hleast k hk hfk

namespace IntMatrix

open DenseMatrix

/-- The positions from `start` up to `stop`. -/
def positions (start stop : Nat) : List Nat :=
  List.range' start (stop - start)

theorem mem_positions {start stop k : Nat} : k ∈ positions start stop ↔ start ≤ k ∧ k < stop := by
  simp only [positions, List.mem_range'_1]
  omega

/-- The least nonzero magnitude of the values from `start` up to `stop`, 0 if all of them are zero. -/
def leastAbs (f : Nat → Int) (start stop : Nat) : Nat :=
  ((leastMagnitude? f (positions start stop)).map fun c => (f c).natAbs).getD 0

theorem leastAbs_le {f : Nat → Int} {start stop k : Nat} (hstart : start ≤ k) (hstop : k < stop)
    (hne : f k ≠ 0) : leastAbs f start stop ≤ (f k).natAbs := by
  rw [leastAbs]
  cases hfind : leastMagnitude? f (positions start stop) with
  | none => exact Nat.zero_le _
  | some c => exact (leastMagnitude?_eq_some hfind).2.2 k (mem_positions.mpr ⟨hstart, hstop⟩) hne

theorem leastAbs_eq {f : Nat → Int} {start stop k : Nat} (hstart : start ≤ k) (hstop : k < stop)
    (hne : f k ≠ 0) (hleast : ∀ j, start ≤ j → j < stop → f j ≠ 0 → (f k).natAbs ≤ (f j).natAbs) :
    leastAbs f start stop = (f k).natAbs := by
  refine Nat.le_antisymm (leastAbs_le hstart hstop hne) ?_
  rw [leastAbs]
  cases hfind : leastMagnitude? f (positions start stop) with
  | none => exact absurd (leastMagnitude?_eq_none hfind k (mem_positions.mpr ⟨hstart, hstop⟩)) hne
  | some c =>
    obtain ⟨hmem, hc, -⟩ := leastMagnitude?_eq_some hfind
    obtain ⟨hstart, hstop⟩ := mem_positions.mp hmem
    exact hleast c hstart hstop hc

theorem leastAbs_eq_zero_iff {f : Nat → Int} {start stop : Nat} :
    leastAbs f start stop = 0 ↔ ∀ k, start ≤ k → k < stop → f k = 0 := by
  rw [leastAbs]
  cases hfind : leastMagnitude? f (positions start stop) with
  | none =>
    exact iff_of_true rfl fun k hstart hstop =>
      leastMagnitude?_eq_none hfind k (mem_positions.mpr ⟨hstart, hstop⟩)
  | some c =>
    obtain ⟨hmem, hc, -⟩ := leastMagnitude?_eq_some hfind
    obtain ⟨hstart, hstop⟩ := mem_positions.mp hmem
    exact iff_of_false (by simpa using hc) fun hall => hc (hall c hstart hstop)

/-- The column from `start` on where the row has its least nonzero magnitude, when it has at least
two nonzero entries there. -/
def rowPivot? (m : IntMatrix) (row start : Nat) : Option Nat :=
  let candidates := positions start m.cols
  if 2 ≤ (candidates.filter (m.entry row · ≠ 0)).length then
    leastMagnitude? (m.entry row ·) candidates
  else none

/-- The row from `start` on where the column has its least nonzero magnitude, when it has at least
two nonzero entries there. -/
def colPivot? (m : IntMatrix) (col start : Nat) : Option Nat :=
  let candidates := positions start m.rows
  if 2 ≤ (candidates.filter (m.entry · col ≠ 0)).length then
    leastMagnitude? (m.entry · col) candidates
  else none

end IntMatrix

end AffineLoops
