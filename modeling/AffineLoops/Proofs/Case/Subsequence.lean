import AffineLoops.Case.Subsequence
import AffineLoops.Proofs.Case.Build
import AffineLoops.Proofs.Oracle.Equivalence
import AffineLoops.Proofs.Rule.Run
import Mathlib.Order.Bounds.Basic
/-!
# The table of the longest common subsequence

A common subsequence of two lists that end in `a` and `b` leaves out one of the two last elements, or
ends in both of them. So the lengths of the longest ones satisfy the recurrence of the table, and the
derived nest, which runs along the diagonals, fills in its solution.

## Main definitions

- `commonLengths`, `isGreatest_concat` — common subsequences, and one more element on both sides
- `commonCell`, `commonCell_isGreatest` — the solution of the recurrence, and what it stands for
- `CaseSpec.lcs_eq_ok_iff` — the case of two strings
- `lcsLength_isGreatest` — the length that is computed
-/

namespace AffineLoops

section CommonSubsequences

variable {α : Type} {u v w : List α} {a b : α} {x y z n : ℕ}

/-- The lengths of the common subsequences of two lists. -/
def commonLengths (u v : List α) : Set ℕ :=
  {k | ∃ w : List α, w.Sublist u ∧ w.Sublist v ∧ w.length = k}

theorem commonLengths_mono {u' v' : List α} (hu : u.Sublist u') (hv : v.Sublist v') :
    commonLengths u v ⊆ commonLengths u' v' := by
  rintro k ⟨w, hwu, hwv, hlen⟩
  exact ⟨w, hwu.trans hu, hwv.trans hv, hlen⟩

theorem isGreatest_nil_left (v : List α) : IsGreatest (commonLengths [] v) 0 := by
  refine ⟨⟨[], .refl _, List.nil_sublist v, rfl⟩, ?_⟩
  rintro k ⟨w, hw, -, rfl⟩
  rw [List.sublist_nil.mp hw, List.length_nil]

theorem isGreatest_nil_right (u : List α) : IsGreatest (commonLengths u []) 0 := by
  refine ⟨⟨[], List.nil_sublist u, .refl _, rfl⟩, ?_⟩
  rintro k ⟨w, -, hw, rfl⟩
  rw [List.sublist_nil.mp hw, List.length_nil]

theorem isGreatest_le_min (h : IsGreatest (commonLengths u v) n) : n ≤ min u.length v.length := by
  obtain ⟨w, hu, hv, rfl⟩ := h.1
  exact le_min hu.length_le hv.length_le

/-- A subsequence leaves out the last element or ends in it. -/
theorem sublist_concat_iff : w.Sublist (u ++ [a]) ↔ w.Sublist u ∨ ∃ w', w = w' ++ [a] ∧ w'.Sublist u := by
  rw [List.sublist_append_iff]
  constructor
  · rintro ⟨w₁, w₂, rfl, h₁, h₂⟩
    rcases List.sublist_singleton.mp h₂ with rfl | rfl
    · exact Or.inl (by rwa [List.append_nil])
    · exact Or.inr ⟨w₁, rfl, h₁⟩
  · rintro (h | ⟨w', rfl, h⟩)
    · exact ⟨w, [], (List.append_nil w).symm, h, List.nil_sublist _⟩
    · exact ⟨w', [a], rfl, h, .refl _⟩

/-- The recurrence for the length of the longest common subsequence. -/
theorem isGreatest_concat [DecidableEq α] (hx : IsGreatest (commonLengths u (v ++ [b])) x)
    (hy : IsGreatest (commonLengths (u ++ [a]) v) y) (hz : IsGreatest (commonLengths u v) z) :
    IsGreatest (commonLengths (u ++ [a]) (v ++ [b])) (max (max x y) (z + if a = b then 1 else 0)) := by
  have hu : u.Sublist (u ++ [a]) := List.sublist_append_left u [a]
  have hv : v.Sublist (v ++ [b]) := List.sublist_append_left v [b]
  constructor
  · have hlast : z + (if a = b then 1 else 0) ∈ commonLengths (u ++ [a]) (v ++ [b]) := by
      split
      · next hab =>
        obtain ⟨w, hwu, hwv, rfl⟩ := hz.1
        exact ⟨w ++ [a], hwu.append (.refl _), hab ▸ hwv.append (.refl _), by simp⟩
      · exact commonLengths_mono hu hv hz.1
    have hfirst := max_rec' (· ∈ commonLengths (u ++ [a]) (v ++ [b]))
      (commonLengths_mono hu (.refl _) hx.1) (commonLengths_mono (.refl _) hv hy.1)
    exact max_rec' (· ∈ commonLengths (u ++ [a]) (v ++ [b])) hfirst hlast
  · rintro k ⟨w, hwu, hwv, rfl⟩
    rcases sublist_concat_iff.mp hwu with hwu' | ⟨w₁, rfl, h₁⟩
    · exact le_max_of_le_left (le_max_of_le_left (hx.2 ⟨w, hwu', hwv, rfl⟩))
    · rcases sublist_concat_iff.mp hwv with hwv' | ⟨w₂, heq, h₂⟩
      · exact le_max_of_le_left (le_max_of_le_right (hy.2 ⟨_, hwu, hwv', rfl⟩))
      · -- both last elements are used, so they are equal
        obtain ⟨rfl, hab⟩ := List.append_inj' heq rfl
        obtain rfl : a = b := List.singleton_inj.mp hab
        have hrest := hz.2 ⟨w₁, h₁, h₂, rfl⟩
        refine le_max_of_le_right ?_
        rw [if_pos rfl, List.length_append, List.length_singleton]
        omega

end CommonSubsequences

/-! ### The recurrence over cells -/

section Cells

variable {u v : Array Char} {i j : ℕ}

/-- The solution of the recurrence of the table, with the sums of cells. -/
def commonCell (u v : Array Char) : ℕ → ℕ → Cell
  | 0, _ => 0
  | _ + 1, 0 => 0
  | i + 1, j + 1 => max (max (commonCell u v i (j + 1)) (commonCell u v (i + 1) j))
      (commonCell u v i j + if u[i]? = v[j]? then 1 else 0)
termination_by i j => (i, j)

theorem commonCell_zero_left (j : ℕ) : commonCell u v 0 j = 0 := by rw [commonCell]

theorem commonCell_zero_right (i : ℕ) : commonCell u v i 0 = 0 := by
  cases i <;> rw [commonCell]

theorem ofNat_max {a b : ℕ} (ha : a < 2 ^ 63) (hb : b < 2 ^ 63) :
    Int64.ofNat (max a b) = max (Int64.ofNat a) (Int64.ofNat b) := by
  have hle : Int64.ofNat a ≤ Int64.ofNat b ↔ a ≤ b := by
    rw [Int64.le_iff_toInt_le, Int64.toInt_ofNat_of_lt ha, Int64.toInt_ofNat_of_lt hb, Nat.cast_le]
  show _ = if Int64.ofNat a ≤ Int64.ofNat b then Int64.ofNat b else Int64.ofNat a
  split
  · next h => rw [max_eq_right (hle.mp h)]
  · next h => rw [max_eq_left (not_le.mp (mt hle.mpr h)).le]

/-- As long as cells do not overflow, the table holds the lengths of the longest common subsequences
of the beginnings of the two strings. -/
theorem commonCell_isGreatest (hi : i ≤ u.size) (hj : j ≤ v.size) (h : min i j < 2 ^ 63) :
    ∃ n : ℕ, commonCell u v i j = Int64.ofNat n ∧
      IsGreatest (commonLengths (u.toList.take i) (v.toList.take j)) n := by
  induction i, j using commonCell.induct with
  | case1 j => exact ⟨0, commonCell_zero_left j, isGreatest_nil_left _⟩
  | case2 i => exact ⟨0, commonCell_zero_right (i + 1), isGreatest_nil_right _⟩
  | case3 i j ihleft ihright ihboth =>
    obtain ⟨x, hx, hxmax⟩ := ihleft (by omega) hj (by omega)
    obtain ⟨y, hy, hymax⟩ := ihright hi (by omega) (by omega)
    obtain ⟨z, hz, hzmax⟩ := ihboth (by omega) (by omega) (by omega)
    have hui : u.toList.take (i + 1) = u.toList.take i ++ [u[i]] := by
      rw [← List.take_append_getElem (by simpa using hi)]
      simp
    have hvj : v.toList.take (j + 1) = v.toList.take j ++ [v[j]] := by
      rw [← List.take_append_getElem (by simpa using hj)]
      simp
    rw [hvj] at hxmax
    rw [hui] at hymax
    have hmax := isGreatest_concat hxmax hymax hzmax
    -- no length is above that of the shorter string, so the sums of cells do not wrap around
    have hbound := isGreatest_le_min hmax
    refine ⟨_, ?_, by rw [hui, hvj]; exact hmax⟩
    have hmatch : u[i]? = v[j]? ↔ u[i] = v[j] := by
      rw [Array.getElem?_eq_getElem (by omega), Array.getElem?_eq_getElem (by omega), Option.some_inj]
    simp only [List.length_append, List.length_take, List.length_singleton, Array.length_toList]
      at hbound
    rw [commonCell, hx, hy, hz, ofNat_max (by omega) (by omega), ofNat_max (by omega) (by omega),
      Int64.ofNat_add]
    simp only [hmatch]
    split <;> rfl

/-- The same at a point of the table. -/
def commonTable (u v : Array Char) : Point → Cell
  | [x, y] => commonCell u v x.toNat y.toNat
  | _ => 0

theorem commonTable_natCast (i j : ℕ) : commonTable u v [(i : ℤ), (j : ℤ)] = commonCell u v i j := rfl

theorem get_matchGrid {shape : Domain} (hd : shape.WellFormed)
    (hp : shape.contains [((i + 1 : ℕ) : ℤ), ((j + 1 : ℕ) : ℤ)]) :
    (matchGrid shape u v).get [((i + 1 : ℕ) : ℤ), ((j + 1 : ℕ) : ℤ)] =
      .ok (if u[i]? = v[j]? then 1 else 0) := by
  rw [matchGrid, Grid.get_ofFn hd _ hp]
  simp

end Cells

/-! ### The case of two strings -/

namespace CaseSpec

variable {left right : String}

/-- The case of two strings that are not empty. -/
def lcsTable (left right : String) : CaseSpec where
  name := "lcs"
  domain := ⟨[1, 1], [left.length + 1, right.length + 1]⟩
  arrayShape := ⟨[0, 0], [left.length + 1, right.length + 1]⟩
  transform := .skew 2 0 1 1
  dependences := ⟨2, [[-1, 0], [0, -1], [-1, -1]]⟩
  rule := .lcs
  observation := .cell [left.length, right.length]
  input := .zeros
  aux := some (matchGrid ⟨[0, 0], [left.length + 1, right.length + 1]⟩ left.toList.toArray
    right.toList.toArray)

theorem length_pos_iff {s : String} : (1 : ℤ) < s.length + 1 ↔ s ≠ "" := by
  rw [← String.length_toList, ne_eq, ← String.toList_eq_nil_iff, ← List.length_eq_zero_iff]
  omega

/-- There is a case for any two strings that are not empty. -/
theorem lcs_eq_ok_iff {spec : CaseSpec} :
    lcs left right = .ok spec ↔ (left ≠ "" ∧ right ≠ "") ∧ lcsTable left right = spec := by
  have hshape : Domain.rect 0 (left.length + 1) 0 (right.length + 1) =
      .ok ⟨[0, 0], [left.length + 1, right.length + 1]⟩ :=
    Domain.rect_eq_ok_iff.mpr ⟨⟨by omega, by omega⟩, rfl⟩
  have hdeps : DependencePattern.ofOffsets 2 [[-1, 0], [0, -1], [-1, -1]] =
      .ok ⟨2, [[-1, 0], [0, -1], [-1, -1]]⟩ := by decide
  rw [← length_pos_iff, ← length_pos_iff, lcs]
  simp only [List.size_toArray, String.length_toList, Except.bind_eq_ok, Except.liftM_domain_eq_ok,
    Except.liftM_derivation_eq_ok, hshape, hdeps, Domain.rect_eq_ok_iff]
  constructor
  · rintro ⟨_, hshape', _, ⟨hne, rfl⟩, _, htransform, _, hdeps', h⟩
    cases hshape'
    cases htransform
    cases hdeps'
    cases h
    exact ⟨hne, rfl⟩
  · rintro ⟨hne, rfl⟩
    exact ⟨_, rfl, _, ⟨hne, rfl⟩, _, rfl, _, rfl, rfl⟩

/-- A point of the table that is computed, by the numbers of characters before its own. -/
theorem contains_lcsTable {p : Point} :
    (lcsTable left right).domain.contains p ↔
      ∃ i j : ℕ, p = [((i + 1 : ℕ) : ℤ), ((j + 1 : ℕ) : ℤ)] ∧ i < left.length ∧ j < right.length := by
  rw [lcsTable, Domain.contains_planar]
  constructor
  · rintro ⟨x, y, rfl, hx, hy⟩
    refine ⟨(x - 1).toNat, (y - 1).toNat, ?_, by omega, by omega⟩
    congr <;> omega
  · rintro ⟨i, j, rfl, hi, hj⟩
    exact ⟨_, _, rfl, by omega, by omega⟩

theorem contains_arrayShape {p : Point} :
    (lcsTable left right).arrayShape.contains p ↔
      ∃ i j : ℕ, p = [(i : ℤ), (j : ℤ)] ∧ i ≤ left.length ∧ j ≤ right.length := by
  rw [lcsTable, Domain.contains_planar]
  constructor
  · rintro ⟨x, y, rfl, hx, hy⟩
    refine ⟨x.toNat, y.toNat, ?_, by omega, by omega⟩
    rw [Int.toNat_of_nonneg hx.1, Int.toNat_of_nonneg hy.1]
  · rintro ⟨i, j, rfl, hi, hj⟩
    exact ⟨_, _, rfl, by omega, by omega⟩

theorem lcsTable_arrayShape_wellFormed : (lcsTable left right).arrayShape.WellFormed :=
  .cons (by omega) (.cons (by omega) .nil)

theorem shift_neighbours (i j : ℕ) :
    Point.shift [((i + 1 : ℕ) : ℤ), ((j + 1 : ℕ) : ℤ)] [-1, 0] = [(i : ℤ), ((j + 1 : ℕ) : ℤ)] ∧
      Point.shift [((i + 1 : ℕ) : ℤ), ((j + 1 : ℕ) : ℤ)] [0, -1] = [((i + 1 : ℕ) : ℤ), (j : ℤ)] ∧
        Point.shift [((i + 1 : ℕ) : ℤ), ((j + 1 : ℕ) : ℤ)] [-1, -1] = [(i : ℤ), (j : ℤ)] ∧
          Point.shift [((i + 1 : ℕ) : ℤ), ((j + 1 : ℕ) : ℤ)] [0, 0] =
            [((i + 1 : ℕ) : ℤ), ((j + 1 : ℕ) : ℤ)] := by
  simp [Point.shift]

/-- The cell of an iteration and all that it reads are in the table. -/
theorem lcsTable_safe {p : Point} (hp : (lcsTable left right).domain.contains p) :
    UpdateRule.lcs.Safe (lcsTable left right).arrayShape (lcsTable left right).aux p := by
  obtain ⟨i, j, rfl, hi, hj⟩ := contains_lcsTable.mp hp
  obtain ⟨hup, hleft, hboth, hself⟩ := shift_neighbours i j
  have hin : ∀ a b : ℕ, a ≤ i + 1 → b ≤ j + 1 →
      (lcsTable left right).arrayShape.contains [(a : ℤ), (b : ℤ)] := fun a b ha hb =>
    contains_arrayShape.mpr ⟨a, b, rfl, by omega, by omega⟩
  refine ⟨hin (i + 1) (j + 1) le_rfl le_rfl, ?_, ?_⟩
  · show ∀ o ∈ [[-1, 0], [0, -1], [-1, -1]], _
    simp only [List.forall_mem_cons, List.not_mem_nil, false_imp_iff, implies_true, and_true, hup,
      hleft, hboth]
    exact ⟨hin i (j + 1) (by omega) le_rfl, hin (i + 1) j le_rfl (by omega),
      hin i j (by omega) (by omega)⟩
  · show ∀ o ∈ [[0, 0]], _
    simp only [List.forall_mem_cons, List.not_mem_nil, false_imp_iff, implies_true, and_true, hself]
    exact ⟨_, rfl, hin (i + 1) (j + 1) le_rfl le_rfl⟩

/-- An iteration computes its value of the recurrence from those around it. -/
theorem value_lcs {p : Point} (hp : (lcsTable left right).domain.contains p) {g : Grid}
    (hg : ∀ o ∈ UpdateRule.lcs.reads, g.get (p.shift o) =
      .ok (commonTable left.toList.toArray right.toList.toArray (p.shift o))) :
    UpdateRule.lcs.value g (lcsTable left right).aux p =
      .ok (commonTable left.toList.toArray right.toList.toArray p) := by
  obtain ⟨i, j, rfl, hi, hj⟩ := contains_lcsTable.mp hp
  obtain ⟨hup, hleft, hboth, hself⟩ := shift_neighbours i j
  generalize hu : left.toList.toArray = u at hg ⊢
  generalize hv : right.toList.toArray = v at hg ⊢
  have habove := hg [-1, 0] (by decide)
  have hbefore := hg [0, -1] (by decide)
  have hdiagonal := hg [-1, -1] (by decide)
  rw [hup, commonTable_natCast] at habove
  rw [hleft, commonTable_natCast] at hbefore
  rw [hboth, commonTable_natCast] at hdiagonal
  have hmatch : CellExpr.readAux (lcsTable left right).aux [((i + 1 : ℕ) : ℤ), ((j + 1 : ℕ) : ℤ)] =
      .ok (if u[i]? = v[j]? then 1 else 0) := by
    rw [← hu, ← hv]
    exact Except.mapError_eq_ok.mpr
      (get_matchGrid lcsTable_arrayShape_wellFormed (lcsTable_safe hp).write)
  rw [UpdateRule.value, UpdateRule.lcs]
  simp only [CellExpr.eval, hup, hleft, hboth, hself, habove, hbefore, hdiagonal, hmatch,
    commonTable_natCast]
  rw [commonCell]
  rfl

theorem exists_build_lcsTable (hleft : left ≠ "") (hright : right ≠ "") :
    ∃ nest, Case.build (lcsTable left right) = .ok ((lcsTable left right).withNest nest) ∧
      nest.Realizes (lcsTable left right).domain (.skew 2 0 1 1) := by
  have hdomain : (lcsTable left right).domain.WellFormed :=
    .cons (length_pos_iff.mpr hleft) (.cons (length_pos_iff.mpr hright) .nil)
  have hdeps : UpdateRule.lcs.dependencePattern 2 = .ok ⟨2, [[-1, 0], [0, -1], [-1, -1]]⟩ := by
    decide +kernel
  refine Case.exists_build hdomain (Transform.skew_wellFormed 2 0 1 1).proper rfl (Or.inl rfl)
    (fun o ho => ⟨?_, fun p hp => (lcsTable_safe hp).read.reads o ho⟩) ?_ hdeps
  · have hlength : ∀ o ∈ UpdateRule.lcs.reads, o.length = 2 := by decide
    exact hlength o ho
  · intro p hp
    cases hp
    exact contains_arrayShape.mpr ⟨_, _, rfl, le_rfl, le_rfl⟩

/-- The cells around the iterations are zero, which is what the recurrence starts from. -/
theorem zeros_holds : (Grid.zeros (lcsTable left right).arrayShape).Holds
    (lcsTable left right).arrayShape
    (fun p => (lcsTable left right).arrayShape.contains p ∧ ¬(lcsTable left right).domain.contains p)
    (commonTable left.toList.toArray right.toList.toArray) := by
  refine ⟨rfl, Grid.zeros_wellFormed _, fun p hp => ?_⟩
  rw [Grid.get_zeros hp.1]
  obtain ⟨i, j, rfl, hi, hj⟩ := contains_arrayShape.mp hp.1
  rw [commonTable_natCast]
  cases i with
  | zero => rw [commonCell_zero_left]
  | succ i =>
    cases j with
    | zero => rw [commonCell_zero_right]
    | succ j => exact absurd (contains_lcsTable.mpr ⟨i, j, rfl, hi, hj⟩) hp.2

theorem exists_execute_lcsTable {nest : Nest}
    (h : nest.Realizes (lcsTable left right).domain (.skew 2 0 1 1)) :
    ∃ table, ((lcsTable left right).withNest nest).execute
        ((lcsTable left right).withNest nest).transformed (.zeros (lcsTable left right).arrayShape) =
          .ok table ∧
      table.Holds (lcsTable left right).arrayShape ((lcsTable left right).arrayShape.contains ·)
        (commonTable left.toList.toArray right.toList.toArray) := by
  have hback : ∀ o ∈ UpdateRule.lcs.reads,
      o.length = 2 ∧ ((Transform.skew 2 0 1 1).apply o).lexSign < 0 := by decide
  obtain ⟨table, hrun, hholds⟩ := h.exists_run_holds lcsTable_arrayShape_wellFormed
    (fun p hp => lcsTable_safe hp) hback (fun p hp g hg => value_lcs hp hg) zeros_holds
  exact ⟨table, Nest.finalGrid_eq_ok.mpr hrun, hholds⟩

end CaseSpec

theorem commonCell_of_empty {left right : String} (h : left = "" ∨ right = "") :
    commonCell left.toList.toArray right.toList.toArray left.length right.length = 0 := by
  rcases h with rfl | rfl
  · exact commonCell_zero_left _
  · exact commonCell_zero_right _

theorem lcsLength_eq (left right : String) : lcsLength left right =
    .ok (commonCell left.toList.toArray right.toList.toArray left.length right.length) := by
  rw [lcsLength]
  by_cases hempty : left = "" ∨ right = ""
  · have hcond : (left.isEmpty || right.isEmpty) = true := by simpa using hempty
    rw [if_pos hcond, commonCell_of_empty hempty]
    rfl
  · obtain ⟨hleft, hright⟩ := not_or.mp hempty
    have hcond : ¬(left.isEmpty || right.isEmpty) = true := by simpa using hempty
    obtain ⟨nest, hbuild, hreal⟩ := CaseSpec.exists_build_lcsTable hleft hright
    obtain ⟨table, hrun, hholds⟩ := CaseSpec.exists_execute_lcsTable hreal
    have hspec := CaseSpec.lcs_eq_ok_iff.mpr ⟨⟨hleft, hright⟩, rfl⟩
    have hget := hholds.get [(left.length : ℤ), (right.length : ℤ)]
      (CaseSpec.contains_arrayShape.mpr ⟨_, _, rfl, le_rfl, le_rfl⟩)
    rw [if_neg hcond, hspec, Except.bind_ok, hbuild, Except.bind_ok]
    refine Except.bind_eq_ok.mpr ⟨table, hrun, ?_⟩
    rw [hget, commonTable_natCast]
    rfl

/-- The length that the wavefront nest computes is that of the longest common subsequence, for any
two strings. Nothing fails on the way: the case of two strings that are not empty exists, it is
built, and its derived nest runs to the end. Cells have 64 bits, so the strings must not both have
`2 ^ 63` characters or more, which no two strings have. -/
theorem lcsLength_isGreatest (left right : String) :
    ∃ v, lcsLength left right = .ok v ∧
      (min left.length right.length < 2 ^ 63 → ∃ n : ℕ, v.toInt = n ∧
        IsGreatest (commonLengths left.toList right.toList) n) ∧
      (left ≠ "" → right ≠ "" → ∃ spec c table, CaseSpec.lcs left right = .ok spec ∧
        Case.build spec = .ok c ∧ c.execute c.transformed (.zeros c.arrayShape) = .ok table) := by
  refine ⟨_, lcsLength_eq left right, fun hsize => ?_, fun hleft hright => ?_⟩
  · obtain ⟨n, hn, hmax⟩ := commonCell_isGreatest (u := left.toList.toArray)
      (v := right.toList.toArray) (i := left.length) (j := right.length)
      (by simp [String.length_toList]) (by simp [String.length_toList]) hsize
    have hleft : left.toList.take left.length = left.toList :=
      List.take_of_length_le String.length_toList.le
    have hright : right.toList.take right.length = right.toList :=
      List.take_of_length_le String.length_toList.le
    rw [List.toList_toArray, List.toList_toArray, hleft, hright] at hmax
    have hbound := isGreatest_le_min hmax
    rw [String.length_toList, String.length_toList] at hbound
    exact ⟨n, by rw [hn, Int64.toInt_ofNat_of_lt (by omega)], hmax⟩
  · obtain ⟨nest, hbuild, hreal⟩ := CaseSpec.exists_build_lcsTable hleft hright
    obtain ⟨table, hrun, -⟩ := CaseSpec.exists_execute_lcsTable hreal
    exact ⟨_, _, table, CaseSpec.lcs_eq_ok_iff.mpr ⟨⟨hleft, hright⟩, rfl⟩, hbuild, hrun⟩

/-- Two letters are common to these strings in the same order, and no three. -/
theorem lcsLength_two_letters : lcsLength "ABCB" "BDCA" = .ok 2 ∧
    IsGreatest (commonLengths "ABCB".toList "BDCA".toList) 2 := by
  have hvalue : lcsLength "ABCB" "BDCA" = .ok 2 := by decide +kernel
  obtain ⟨v, hv, hmax, -⟩ := lcsLength_isGreatest "ABCB" "BDCA"
  cases hvalue.symm.trans hv
  obtain ⟨n, hn, hgreatest⟩ := hmax (by decide)
  obtain rfl : n = 2 := by
    have htwo : (2 : Int64).toInt = 2 := by decide
    omega
  exact ⟨hvalue, hgreatest⟩

end AffineLoops
