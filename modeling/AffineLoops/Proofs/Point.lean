import AffineLoops.Point
import Mathlib.Data.List.Lex
import Mathlib.Data.Int.Order.Basic
/-!
# The lexicographic order of points

Moving a point by an offset moves it backwards or forwards in the lexicographic order, as the sign
of the offset says. The test for the order is that of lists, so sorting with it gives a list that
only depends on the set of its elements.

## Main definitions

- `Point.shift_lt`, `Point.lt_shift` — offsets and the order
- `Point.TurnsBack` — a distance and the offset that points backwards
- `Point.headD_le_of_lt` — the first coordinate decides first
- `Point.lexLe_iff` — the test for the order
- `Point.mergeSort_eq_of_perm` — sorting forgets the original order
-/

namespace AffineLoops.Point

variable {p o : Point}

theorem shift_eq_self (hlen : o.length = p.length) (h : o.lexSign = 0) : p.shift o = p := by
  induction p generalizing o with
  | nil => rw [shift, List.zipWith_nil_left]
  | cons x p ih =>
    obtain ⟨a, o, rfl⟩ := List.exists_cons_of_length_eq_add_one hlen
    unfold lexSign at h
    split at h
    · next hzero =>
      rw [shift, List.zipWith_cons_cons, hzero, Int.add_zero]
      exact congrArg (x :: ·) (ih (by simpa using hlen) h)
    · next hne => exact absurd (Int.sign_eq_zero_iff_zero.mp h) hne

/-- A negative offset moves a point backwards. -/
theorem shift_lt (hlen : o.length = p.length) (h : o.lexSign < 0) : p.shift o < p := by
  induction p generalizing o with
  | nil =>
    obtain rfl := List.length_eq_zero_iff.mp hlen
    cases h
  | cons x p ih =>
    obtain ⟨a, o, rfl⟩ := List.exists_cons_of_length_eq_add_one hlen
    rw [shift, List.zipWith_cons_cons, List.cons_lt_cons_iff]
    unfold lexSign at h
    split at h
    · next hzero => exact Or.inr ⟨by omega, ih (by simpa using hlen) h⟩
    · exact Or.inl (by have hneg := Int.sign_neg_iff.mp h; omega)

/-- A positive offset moves a point forwards. -/
theorem lt_shift (hlen : o.length = p.length) (h : 0 < o.lexSign) : p < p.shift o := by
  induction p generalizing o with
  | nil =>
    obtain rfl := List.length_eq_zero_iff.mp hlen
    cases h
  | cons x p ih =>
    obtain ⟨a, o, rfl⟩ := List.exists_cons_of_length_eq_add_one hlen
    rw [shift, List.zipWith_cons_cons, List.cons_lt_cons_iff]
    unfold lexSign at h
    split at h
    · next hzero => exact Or.inr ⟨by omega, ih (by simpa using hlen) h⟩
    · exact Or.inl (by have hpos := Int.sign_pos_iff.mp h; omega)

/-- The opposite offset moves a point back. -/
theorem shift_neg (hlen : o.length = p.length) : (p.shift o).shift o.neg = p := by
  apply List.ext_getElem
  · simp [shift, neg, hlen]
  · intro i h₁ h₂
    simp only [shift, neg, List.getElem_zipWith, List.getElem_map]
    omega

theorem lexSign_neg (p : Point) : p.neg.lexSign = -p.lexSign := by
  induction p with
  | nil => rfl
  | cons x p ih =>
    rw [neg, List.map_cons, lexSign, lexSign, Int.sign_neg]
    by_cases hx : x = 0
    · rw [if_pos hx, if_pos (by omega)]
      exact ih
    · rw [if_neg hx, if_neg (by omega)]

/-- The origin is the only point that is neither before nor after it. -/
theorem lexSign_eq_zero_iff : p.lexSign = 0 ↔ p = List.replicate p.length 0 := by
  induction p with
  | nil => exact iff_of_true rfl rfl
  | cons x p ih =>
    rw [lexSign, List.length_cons, List.replicate_succ, List.cons_eq_cons, ← ih]
    by_cases hx : x = 0
    · rw [if_pos hx, and_iff_right hx]
    · rw [if_neg hx, Int.sign_eq_zero_iff_zero]
      exact iff_of_false hx fun h => hx h.1

/-- The offset points backwards, and is the distance itself or its opposite. -/
def TurnsBack (distance o : Point) : Prop :=
  o.lexSign < 0 ∧ (o = distance ∨ o = distance.neg)

instance (distance o : Point) : Decidable (distance.TurnsBack o) :=
  inferInstanceAs (Decidable (_ ∧ _))

theorem turnsBack_of_neg (h : p.lexSign < 0) : p.TurnsBack o ↔ o = p := by
  constructor
  · rintro ⟨hsign, rfl | rfl⟩
    · rfl
    · rw [lexSign_neg] at hsign
      omega
  · rintro rfl
    exact ⟨h, Or.inl rfl⟩

theorem turnsBack_of_pos (h : 0 < p.lexSign) : p.TurnsBack o ↔ o = p.neg := by
  constructor
  · rintro ⟨hsign, rfl | rfl⟩
    · omega
    · rfl
  · rintro rfl
    exact ⟨by rw [lexSign_neg]; omega, Or.inr rfl⟩

/-- The zero vector points nowhere. -/
theorem not_turnsBack_of_zero (h : p.lexSign = 0) : ¬p.TurnsBack o := by
  rintro ⟨hsign, rfl | rfl⟩
  · omega
  · rw [lexSign_neg] at hsign
    omega

theorem exists_turnsBack_iff : (∃ o, p.TurnsBack o) ↔ p.lexSign ≠ 0 := by
  constructor
  · rintro ⟨o, ho⟩ hzero
    exact not_turnsBack_of_zero hzero ho
  · intro hne
    rcases lt_or_gt_of_ne hne with hneg | hpos
    · exact ⟨p, (turnsBack_of_neg hneg).mpr rfl⟩
    · exact ⟨p.neg, (turnsBack_of_pos hpos).mpr rfl⟩

/-- The first coordinates never decrease in the lexicographic order. -/
theorem headD_le_of_lt {q : Point} (hlen : p.length = q.length) (h : p < q) :
    p.headD 0 ≤ q.headD 0 := by
  cases p with
  | nil =>
    obtain rfl := List.length_eq_zero_iff.mp hlen.symm
    exact le_rfl
  | cons x p =>
    obtain ⟨y, q, rfl⟩ := List.exists_cons_of_length_eq_add_one hlen.symm
    rcases List.cons_lt_cons_iff.mp h with hlt | ⟨rfl, -⟩
    · exact hlt.le
    · exact le_rfl

/-- An offset moves the first coordinate by its own. -/
theorem headD_shift (hlen : o.length = p.length) : (p.shift o).headD 0 = p.headD 0 + o.headD 0 := by
  cases p with
  | nil =>
    obtain rfl := List.length_eq_zero_iff.mp hlen
    rfl
  | cons x p =>
    obtain ⟨a, o, rfl⟩ := List.exists_cons_of_length_eq_add_one hlen
    rfl

theorem lexLe_iff {p q : Point} : lexLe p q ↔ p ≤ q := by
  induction p generalizing q with
  | nil => exact iff_of_true rfl (not_lt.mp (List.not_lt_nil q))
  | cons x p ih =>
    cases q with
    | nil => exact iff_of_false Bool.false_ne_true (not_le.mpr (List.nil_lt_cons x p))
    | cons y q =>
      rw [lexLe, ← not_lt, List.cons_lt_cons_iff, Bool.or_eq_true, Bool.and_eq_true, ih, ← not_lt,
        decide_eq_true_eq, beq_iff_eq]
      rcases lt_trichotomy x y with h | h | h
      · simp [h, h.not_gt, h.ne']
      · simp [h]
      · simp [h.not_gt, h, h.ne']

/-- Sorting gives the same list whatever the order was before. -/
theorem mergeSort_eq_of_perm {ps qs : List Point} (h : ps.Perm qs) :
    ps.mergeSort lexLe = qs.mergeSort lexLe := by
  have htrans : ∀ a b c : Point, lexLe a b → lexLe b c → lexLe a c := by
    intro a b c hab hbc
    rw [lexLe_iff] at hab hbc ⊢
    exact hab.trans hbc
  have htotal : ∀ a b : Point, lexLe a b || lexLe b a := by
    intro a b
    rw [Bool.or_eq_true, lexLe_iff, lexLe_iff]
    exact le_total a b
  have hsorted := fun l : List Point => List.pairwise_mergeSort htrans htotal l
  refine List.Perm.eq_of_pairwise (fun a b _ _ hab hba => ?_) (hsorted ps) (hsorted qs)
    ((List.mergeSort_perm ps lexLe).trans (h.trans (List.mergeSort_perm qs lexLe).symm))
  exact le_antisymm (lexLe_iff.mp hab) (lexLe_iff.mp hba)

end AffineLoops.Point
