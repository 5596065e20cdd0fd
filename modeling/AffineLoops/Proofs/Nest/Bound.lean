import AffineLoops.Nest.Bound
import Mathlib.Data.List.MinMax
/-!
# What bounds admit

A bound is used to compare loop values with it. A rounded quotient compares like the exact one, a
maximum or minimum of bounds like all of them together, and an aligned start like the bound that it
is made from, among the values of its residue class.

## Main definitions

- `Rounding.le_floor_iff`, `Rounding.ceil_le_iff` — comparison with a rounded quotient
- `Bound.maxOf_le_iff`, `Bound.le_minOf_iff` — comparison with several bounds
- `Bound.aligned_le_iff` — comparison with an aligned start
-/

namespace AffineLoops

namespace Rounding

variable {a b x : ℤ}

/-- An integer is below a quotient when it is below the quotient rounded down. -/
theorem le_floor_iff (hb : 0 < b) : x ≤ floor.quotient a b ↔ x * b ≤ a := by
  rw [quotient, Int.fdiv_eq_ediv_of_nonneg a (by omega)]
  exact Int.le_ediv_iff_mul_le hb

/-- An integer is above a quotient when it is above the quotient rounded up. -/
theorem ceil_le_iff (hb : 0 < b) : ceil.quotient a b ≤ x ↔ a ≤ x * b := by
  have hfloor : -x ≤ (-a).fdiv b ↔ -x * b ≤ -a := le_floor_iff hb
  rw [quotient]
  rw [Int.neg_mul] at hfloor
  omega

theorem quotient_one (r : Rounding) (a : ℤ) : r.quotient a 1 = a := by
  cases r <;> simp [quotient]

/-- A quotient without a remainder is not rounded. -/
theorem floor_mul (hb : b ≠ 0) (a : ℤ) : floor.quotient (b * a) b = a :=
  Int.mul_fdiv_cancel_left a hb

end Rounding

namespace Bound

variable {outer : Point} {x : ℤ}

theorem evalAll_eq (bs : List Bound) : evalAll outer bs = bs.map (eval outer) := by
  induction bs with
  | nil => rfl
  | cons b bs ih => rw [evalAll, ih, List.map_cons]

theorem allDefined_iff {bs : List Bound} : allDefined bs ↔ ∀ b ∈ bs, b.isDefined := by
  induction bs with
  | nil => simp [allDefined]
  | cons b bs ih => simp [allDefined, ih]

theorem max_le_iff {bs : List Bound} (h : bs ≠ []) :
    (max bs).eval outer ≤ x ↔ ∀ b ∈ bs, b.eval outer ≤ x := by
  obtain ⟨m, hm⟩ : ∃ m, (bs.map (eval outer)).max? = some m :=
    Option.isSome_iff_exists.mp (List.isSome_max?_of_ne_nil (by simpa using h))
  rw [eval, evalAll_eq, hm, Option.getD_some, List.max?_le_iff hm]
  simp

theorem le_min_iff {bs : List Bound} (h : bs ≠ []) :
    x ≤ (min bs).eval outer ↔ ∀ b ∈ bs, x ≤ b.eval outer := by
  obtain ⟨m, hm⟩ : ∃ m, (bs.map (eval outer)).min? = some m :=
    Option.isSome_iff_exists.mp (List.isSome_min?_of_ne_nil (by simpa using h))
  rw [eval, evalAll_eq, hm, Option.getD_some, List.le_min?_iff hm]
  simp

/-- A single bound stands for itself. -/
theorem maxOf_cases (bs : List Bound) : (∃ b, bs = [b] ∧ maxOf bs = b) ∨ maxOf bs = max bs := by
  match bs with
  | [] => exact Or.inr rfl
  | [b] => exact Or.inl ⟨b, rfl, rfl⟩
  | _ :: _ :: _ => exact Or.inr rfl

theorem minOf_cases (bs : List Bound) : (∃ b, bs = [b] ∧ minOf bs = b) ∨ minOf bs = min bs := by
  match bs with
  | [] => exact Or.inr rfl
  | [b] => exact Or.inl ⟨b, rfl, rfl⟩
  | _ :: _ :: _ => exact Or.inr rfl

/-- A value is above several lower bounds together when it is above each of them. -/
theorem maxOf_le_iff {bs : List Bound} (h : bs ≠ []) :
    (maxOf bs).eval outer ≤ x ↔ ∀ b ∈ bs, b.eval outer ≤ x := by
  rcases maxOf_cases bs with ⟨b, rfl, hb⟩ | hmax
  · simp [hb]
  · rw [hmax, max_le_iff h]

/-- A value is below several upper bounds together when it is below each of them. -/
theorem le_minOf_iff {bs : List Bound} (h : bs ≠ []) :
    x ≤ (minOf bs).eval outer ↔ ∀ b ∈ bs, x ≤ b.eval outer := by
  rcases minOf_cases bs with ⟨b, rfl, hb⟩ | hmin
  · simp [hb]
  · rw [hmin, le_min_iff h]

theorem isDefined_maxOf {bs : List Bound} (h : ∀ b ∈ bs, b.isDefined) : (maxOf bs).isDefined := by
  rcases maxOf_cases bs with ⟨b, rfl, hb⟩ | hmax
  · rw [hb]
    exact h b List.mem_cons_self
  · rw [hmax, isDefined]
    exact allDefined_iff.mpr h

theorem isDefined_minOf {bs : List Bound} (h : ∀ b ∈ bs, b.isDefined) : (minOf bs).isDefined := by
  rcases minOf_cases bs with ⟨b, rfl, hb⟩ | hmin
  · rw [hb]
    exact h b List.mem_cons_self
  · rw [hmin, isDefined]
    exact allDefined_iff.mpr h

/-- The values from an aligned start on, in whole strides, are the values of the residue class that
are not below the base. -/
theorem aligned_le_iff {base : Bound} {target : AffineForm} {m : ℤ} (hm : 0 < m) :
    (aligned base target m).eval outer ≤ x ∧ m ∣ x - (aligned base target m).eval outer ↔
      base.eval outer ≤ x ∧ m ∣ x - target.eval outer := by
  rw [eval, residue]
  generalize base.eval outer = b
  generalize target.eval outer = t
  have hrem := Int.emod_nonneg (t - b) (show m ≠ 0 by omega)
  have hlt := Int.emod_lt_of_pos (t - b) hm
  have hdiv := Int.emod_add_mul_ediv (t - b) m
  constructor
  · rintro ⟨hle, k, hk⟩
    refine ⟨by omega, k - (t - b) / m, ?_⟩
    rw [Int.mul_sub]
    omega
  · rintro ⟨hle, k, hk⟩
    have hx : x - (b + (t - b) % m) = m * (k + (t - b) / m) := by
      rw [Int.mul_add]
      omega
    refine ⟨?_, k + (t - b) / m, hx⟩
    -- a value of the class that is less than one stride after the base is not before the start
    by_contra hbefore
    have hneg : k + (t - b) / m < 0 := by
      by_contra hge
      have hnonneg : 0 ≤ m * (k + (t - b) / m) := Int.mul_nonneg (by omega) (by omega)
      omega
    have hstride : m * (k + (t - b) / m) ≤ m * -1 :=
      Int.mul_le_mul_of_nonneg_left (by omega) (by omega)
    omega

end Bound

end AffineLoops
