import AffineLoops.Derivation.Planar
import AffineLoops.Proofs.Domain
import AffineLoops.Proofs.Lattice.Steps
import AffineLoops.Proofs.Nest.Bound
import AffineLoops.Proofs.Nest.Enumeration
import Mathlib.Tactic.LinearCombination
/-!
# Exactness of planar nests

The loops of a planar nest run over the image of the domain and nothing else. The outer loop meets
the multiples of its stride in the projection of the domain, the inner one the points of the lattice
that satisfy the conditions in which the inner variable occurs. Where it does not occur in one of
them, that condition is the projection itself.

## Main definitions

- `InnerConstraint.Holds` — what the bounds of the inner loop stand for
- `Nest.mem_outer_values`, `Nest.mem_inner_values` — the values of the two loops
- `Nest.mem_tuples_planar` — the tuples are the images of the points of the domain
-/

namespace AffineLoops

/-! ### Conditions on the inner variable -/

namespace OuterForm

variable {f : OuterForm} {divisor i : ℤ}

/-- The value for a value of the outer variable. -/
def eval (f : OuterForm) (i : ℤ) : ℤ :=
  f.slope * i + f.constant

theorem eval_neg : f.neg.eval i = -f.eval i := by
  rw [eval, eval, neg, neg_mul, ← neg_add]

/-- Folding constants and divisions by one does not change the bound. -/
theorem eval_quotient (rounding : Rounding) :
    (f.quotient divisor rounding).eval [i] = rounding.quotient (f.eval i) divisor := by
  unfold quotient eval
  split
  · next hslope => rw [Bound.eval, hslope, zero_mul, zero_add]
  · split
    · next hone =>
      rw [hone, Rounding.quotient_one]
      simp [Bound.eval, AffineForm.eval, AffineForm.linear, Rounding.quotient_one, Point.dot]
    · simp [Bound.eval, AffineForm.eval, Point.dot]

theorem isDefined_quotient (rounding : Rounding) (h : divisor ≠ 0) :
    (f.quotient divisor rounding).isDefined := by
  unfold quotient
  split
  · rfl
  · split
    · rfl
    · exact bne_iff_ne.mpr h

end OuterForm

namespace InnerConstraint

variable {c : InnerConstraint}

/-- The condition at a point of the plane. -/
def Holds (c : InnerConstraint) (i j : ℤ) : Prop :=
  c.least.eval i ≤ c.factor * j ∧ c.factor * j ≤ c.greatest.eval i

/-- A condition in which the inner variable occurs bounds it, exactly where it holds. A negative
factor exchanges the two sides. -/
theorem bounds?_eq_some (h : c.factor ≠ 0) :
    ∃ lower upper, c.bounds? = some (lower, upper) ∧ (lower.isDefined ∧ upper.isDefined) ∧
      ∀ i j, lower.eval [i] ≤ j ∧ j ≤ upper.eval [i] ↔ c.Holds i j := by
  unfold bounds?
  rw [if_neg h]
  by_cases hpos : 0 < c.factor
  · rw [if_pos hpos]
    refine ⟨_, _, rfl, ⟨OuterForm.isDefined_quotient _ h, OuterForm.isDefined_quotient _ h⟩,
      fun i j => ?_⟩
    rw [OuterForm.eval_quotient, OuterForm.eval_quotient, Rounding.ceil_le_iff hpos,
      Rounding.le_floor_iff hpos, Holds, mul_comm j]
  · rw [if_neg hpos]
    have hneg : 0 < -c.factor := by omega
    refine ⟨_, _, rfl, ⟨OuterForm.isDefined_quotient _ hneg.ne',
      OuterForm.isDefined_quotient _ hneg.ne'⟩, fun i j => ?_⟩
    rw [OuterForm.eval_quotient, OuterForm.eval_quotient, Rounding.ceil_le_iff hneg,
      Rounding.le_floor_iff hneg, OuterForm.eval_neg, OuterForm.eval_neg, Holds, mul_neg,
      neg_le_neg_iff, neg_le_neg_iff, mul_comm j, and_comm]

theorem factor_ne_zero_of_bounds? {b : Bound × Bound} (h : c.bounds? = some b) : c.factor ≠ 0 := by
  intro hzero
  rw [bounds?, if_pos hzero] at h
  cases h

theorem filterMap_bounds?_ne_nil {cs : List InnerConstraint} (h : ∃ c ∈ cs, c.factor ≠ 0) :
    cs.filterMap bounds? ≠ [] := by
  obtain ⟨c, hc, hfactor⟩ := h
  obtain ⟨lower, upper, hbounds, -⟩ := c.bounds?_eq_some hfactor
  exact List.ne_nil_of_mem (List.mem_filterMap.mpr ⟨c, hc, hbounds⟩)

end InnerConstraint

namespace Nest

open DenseMatrix

/-- The bounds of several conditions admit the values at which all of those that mention the inner
variable hold. -/
theorem combined_bounds_iff {cs : List InnerConstraint} (h : ∃ c ∈ cs, c.factor ≠ 0) (i j : ℤ) :
    (Bound.maxOf ((cs.filterMap InnerConstraint.bounds?).map Prod.fst)).eval [i] ≤ j ∧
      j ≤ (Bound.minOf ((cs.filterMap InnerConstraint.bounds?).map Prod.snd)).eval [i] ↔
        ∀ c ∈ cs, c.factor ≠ 0 → c.Holds i j := by
  have hne := InnerConstraint.filterMap_bounds?_ne_nil h
  rw [Bound.maxOf_le_iff (by simpa using hne), Bound.le_minOf_iff (by simpa using hne)]
  simp only [List.forall_mem_map, List.mem_filterMap]
  constructor
  · rintro ⟨hlower, hupper⟩ c hc hfactor
    obtain ⟨lower, upper, hbounds, -, hiff⟩ := c.bounds?_eq_some hfactor
    exact (hiff i j).mp ⟨hlower _ ⟨c, hc, hbounds⟩, hupper _ ⟨c, hc, hbounds⟩⟩
  · intro hall
    have hpair : ∀ b, (∃ c ∈ cs, c.bounds? = some b) → b.1.eval [i] ≤ j ∧ j ≤ b.2.eval [i] := by
      rintro b ⟨c, hc, hb⟩
      have hfactor := InnerConstraint.factor_ne_zero_of_bounds? hb
      obtain ⟨lower, upper, hbounds, -, hiff⟩ := c.bounds?_eq_some hfactor
      rw [hbounds] at hb
      cases hb
      exact (hiff i j).mpr (hall c hc hfactor)
    exact ⟨fun b hb => (hpair b hb).1, fun b hb => (hpair b hb).2⟩

theorem combined_bounds_defined (cs : List InnerConstraint) :
    (Bound.maxOf ((cs.filterMap InnerConstraint.bounds?).map Prod.fst)).isDefined ∧
      (Bound.minOf ((cs.filterMap InnerConstraint.bounds?).map Prod.snd)).isDefined := by
  have hpair : ∀ b ∈ cs.filterMap InnerConstraint.bounds?, b.1.isDefined ∧ b.2.isDefined := by
    intro b hb
    obtain ⟨c, -, hc⟩ := List.mem_filterMap.mp hb
    have hfactor := InnerConstraint.factor_ne_zero_of_bounds? hc
    obtain ⟨lower, upper, hbounds, hdef, -⟩ := c.bounds?_eq_some hfactor
    rw [hbounds] at hc
    cases hc
    exact hdef
  refine ⟨Bound.isDefined_maxOf fun b hb => ?_, Bound.isDefined_minOf fun b hb => ?_⟩
  · obtain ⟨b', hb', rfl⟩ := List.mem_map.mp hb
    exact (hpair b' hb').1
  · obtain ⟨b', hb', rfl⟩ := List.mem_map.mp hb
    exact (hpair b' hb').2

/-! ### The values of the two loops -/

variable {d : Domain} {t : Transform} {s : LatticeSteps}

/-- The nest that the derivation makes from the steps of the lattice. -/
def planar (d : Domain) (t : Transform) (s : LatticeSteps) : Nest where
  domain := d
  transform := t
  loops := [⟨loopVar 0, .const (outerRange d t s.outerStep).1,
      .const (outerRange d t s.outerStep).2, s.outerStep⟩,
    ⟨loopVar 1, (innerRange d t s).1, (innerRange d t s).2, s.innerStep⟩]
  inverse := t.inverse
  body := none

theorem derivePlanar_eq_ok (hdim : t.dim = 2) (hd : d.dim = 2)
    (hs : LatticeSteps.ofTransform t = .ok s) : derivePlanar d t = .ok (planar d t s) := by
  have hdims : ¬(t.dim ≠ 2 ∨ d.dim ≠ 2) := by simp [hdim, hd]
  rw [derivePlanar, if_neg hdims, hs]
  rfl

theorem innerRange_defined (h : s.outerStep ≠ 0) :
    (innerRange d t s).2.isDefined ∧ (innerRange d t s).1.isDefined := by
  obtain ⟨hlower, hupper⟩ := combined_bounds_defined (innerConstraints d t)
  unfold innerRange
  dsimp only
  split
  · next hstep =>
    have hinner : s.innerStep ≠ 0 := by omega
    refine ⟨hupper, ?_⟩
    rw [Bound.isDefined, hlower]
    simp [h, hinner]
  · exact ⟨hupper, hlower⟩

/-- The inner loop runs over the values in the residue class of its outer value at which the
conditions hold. -/
theorem mem_inner_values (houter : 0 < s.outerStep) (hinner : 0 < s.innerStep)
    (hfactor : ∃ c ∈ innerConstraints d t, c.factor ≠ 0) {i j : ℤ} (hi : s.outerStep ∣ i) :
    j ∈ (Loop.mk (loopVar 1) (innerRange d t s).1 (innerRange d t s).2 s.innerStep).values [i] ↔
      (∀ c ∈ innerConstraints d t, c.factor ≠ 0 → c.Holds i j) ∧
        s.innerStep ∣ j - s.residue * (i / s.outerStep) := by
  rw [Loop.mem_values hinner, ← combined_bounds_iff hfactor]
  unfold innerRange
  dsimp only
  split
  · -- the outer value is a whole number of strides, so the division in the target is exact
    have htarget : AffineForm.eval [i] ⟨[s.residue], 0, s.outerStep, .floor⟩ =
        s.residue * (i / s.outerStep) := by
      obtain ⟨k, rfl⟩ := hi
      rw [Int.mul_ediv_cancel_left k houter.ne', AffineForm.eval, Point.dot_singleton, add_zero,
        mul_left_comm]
      exact Rounding.floor_mul houter.ne' _
    rw [and_right_comm, Bound.aligned_le_iff hinner, htarget, and_right_comm]
  · next hone =>
    have hstep : s.innerStep = 1 := by omega
    simp only [hstep, one_dvd]

/-- The outer loop runs over the multiples of its stride between the extreme projections. -/
theorem mem_outer_values (houter : 0 < s.outerStep) {lo hi : ℤ}
    (hlo : (projections d t).min? = some lo) (hhi : (projections d t).max? = some hi) {i : ℤ} :
    i ∈ (Loop.mk (loopVar 0) (.const (outerRange d t s.outerStep).1)
      (.const (outerRange d t s.outerStep).2) s.outerStep).values [] ↔
        (lo ≤ i ∧ i ≤ hi) ∧ s.outerStep ∣ i := by
  rw [Loop.mem_values houter]
  simp only [Bound.eval, outerRange, hlo, hhi, Option.getD_some]
  rw [dvd_sub_left (dvd_mul_left s.outerStep _)]
  -- a multiple of the stride compares with the rounded ends as with the projections themselves
  refine and_congr_left ?_
  rintro ⟨k, hk⟩
  rw [hk, mul_comm s.outerStep k, mul_le_mul_iff_of_pos_right houter,
    mul_le_mul_iff_of_pos_right houter, Rounding.ceil_le_iff houter, Rounding.le_floor_iff houter]

/-! ### The image of the domain -/

/-- The multiples of the values of an interval are those between the multiples of its ends. -/
theorem mul_between_iff {p a b x : ℤ} (hp : p ≠ 0) (hab : a ≤ b) :
    min (p * a) (p * b) ≤ p * x ∧ p * x ≤ max (p * a) (p * b) ↔ a ≤ x ∧ x ≤ b := by
  rcases lt_or_gt_of_ne hp with hneg | hpos
  · have hle : p * b ≤ p * a := (mul_le_mul_left_of_neg hneg).mpr hab
    rw [min_eq_right hle, max_eq_left hle, mul_le_mul_left_of_neg hneg,
      mul_le_mul_left_of_neg hneg, and_comm]
  · have hle : p * a ≤ p * b := (mul_le_mul_iff_of_pos_left hpos).mpr hab
    rw [min_eq_left hle, max_eq_right hle, mul_le_mul_iff_of_pos_left hpos,
      mul_le_mul_iff_of_pos_left hpos]

theorem mul_between {p a b x : ℤ} (ha : a ≤ x) (hb : x ≤ b) :
    min (p * a) (p * b) ≤ p * x ∧ p * x ≤ max (p * a) (p * b) := by
  by_cases hp : p = 0
  · simp [hp]
  · exact (mul_between_iff hp (ha.trans hb)).mpr ⟨ha, hb⟩

variable {a₁ a₂ b₁ b₂ x y : ℤ}

theorem projections_planar (hr : t.matrix.rows = 2) (hc : t.matrix.cols = 2) :
    projections ⟨[a₁, a₂], [b₁, b₂]⟩ t =
      [t.matrix.entry 0 0 * a₁ + t.matrix.entry 0 1 * a₂,
        t.matrix.entry 0 0 * (b₁ - 1) + t.matrix.entry 0 1 * a₂,
        t.matrix.entry 0 0 * a₁ + t.matrix.entry 0 1 * (b₂ - 1),
        t.matrix.entry 0 0 * (b₁ - 1) + t.matrix.entry 0 1 * (b₂ - 1)] := by
  have hrow : t.matrix.row? 0 = some [t.matrix.entry 0 0, t.matrix.entry 0 1] := by
    rw [row?_eq_some (by omega) hc]
    simp [List.ofFn_succ]
  have hcorners : Domain.corners ⟨[a₁, a₂], [b₁, b₂]⟩ =
      [[a₁, a₂], [b₁ - 1, a₂], [a₁, b₂ - 1], [b₁ - 1, b₂ - 1]] := by
    change (List.range 4).map (Domain.corner ⟨[a₁, a₂], [b₁, b₂]⟩) = _
    simp [List.range_succ, Domain.corner, Nat.testBit]
  rw [projections, hcorners, hrow]
  simp [Point.dot]

/-- The least projection, one axis at a time. -/
theorem min?_projections (hr : t.matrix.rows = 2) (hc : t.matrix.cols = 2) :
    (projections ⟨[a₁, a₂], [b₁, b₂]⟩ t).min? =
      some (min (t.matrix.entry 0 0 * a₁) (t.matrix.entry 0 0 * (b₁ - 1)) +
        min (t.matrix.entry 0 1 * a₂) (t.matrix.entry 0 1 * (b₂ - 1))) := by
  rw [projections_planar hr hc]
  simp only [List.min?_cons, List.min?_nil, Option.elim, Option.some_inj]
  omega

/-- The greatest projection, one axis at a time. -/
theorem max?_projections (hr : t.matrix.rows = 2) (hc : t.matrix.cols = 2) :
    (projections ⟨[a₁, a₂], [b₁, b₂]⟩ t).max? =
      some (max (t.matrix.entry 0 0 * a₁) (t.matrix.entry 0 0 * (b₁ - 1)) +
        max (t.matrix.entry 0 1 * a₂) (t.matrix.entry 0 1 * (b₂ - 1))) := by
  rw [projections_planar hr hc]
  simp only [List.max?_cons, List.max?_nil, Option.elim, Option.some_inj]
  omega

/-- At the image of `(x, y)` the conditions say that the two coordinates are in their ranges, each
of them when the inner variable occurs in its condition. -/
theorem innerConstraints_iff (ht : t.WellFormed) (hdim : t.dim = 2) :
    (∀ c ∈ innerConstraints ⟨[a₁, a₂], [b₁, b₂]⟩ t, c.factor ≠ 0 →
      c.Holds (t.matrix.entry 0 0 * x + t.matrix.entry 0 1 * y)
        (t.matrix.entry 1 0 * x + t.matrix.entry 1 1 * y)) ↔
      (t.matrix.entry 0 0 ≠ 0 → a₂ ≤ y ∧ y < b₂) ∧
        (t.matrix.entry 0 1 ≠ 0 → a₁ ≤ x ∧ x < b₁) := by
  have hdet := ht.determinant_planar hdim
  have hsign : t.determinant.sign ≠ 0 := fun h0 => ht.det_ne_zero (Int.sign_eq_zero_iff_zero.mp h0)
  have hsize : 0 < (t.determinant.natAbs : ℤ) := by
    have hne := ht.det_ne_zero
    omega
  have hscale : t.determinant.sign * (t.matrix.entry 0 0 * t.matrix.entry 1 1 -
      t.matrix.entry 0 1 * t.matrix.entry 1 0) = t.determinant.natAbs := by
    rw [← hdet]
    exact Int.sign_mul_self t.determinant
  simp only [innerConstraints, List.forall_mem_cons, List.not_mem_nil, false_imp_iff,
    implies_true, and_true, mul_ne_zero_iff, hsign, ne_eq, not_false_eq_true, true_and]
  generalize t.determinant.sign = sg at *
  generalize (t.determinant.natAbs : ℤ) = size at *
  generalize t.matrix.entry 0 0 = p at *
  generalize t.matrix.entry 0 1 = r at *
  generalize t.matrix.entry 1 0 = q at *
  generalize t.matrix.entry 1 1 = s at *
  refine and_congr (imp_congr_right fun _ => ?_) (imp_congr_right fun _ => ?_)
  · have hy : sg * p * (q * x + s * y) = sg * q * (p * x + r * y) + y * size := by
      linear_combination y * hscale
    change sg * q * (p * x + r * y) + a₂ * size ≤ sg * p * (q * x + s * y) ∧
      sg * p * (q * x + s * y) ≤ sg * q * (p * x + r * y) + (b₂ - 1) * size ↔ _
    rw [hy, add_le_add_iff_left, add_le_add_iff_left, mul_le_mul_iff_of_pos_right hsize,
      mul_le_mul_iff_of_pos_right hsize, Int.le_sub_one_iff]
  · have hx : sg * r * (q * x + s * y) = sg * s * (p * x + r * y) + -x * size := by
      linear_combination -x * hscale
    change sg * s * (p * x + r * y) + -(b₁ - 1) * size ≤ sg * r * (q * x + s * y) ∧
      sg * r * (q * x + s * y) ≤ sg * s * (p * x + r * y) + -a₁ * size ↔ _
    rw [hx, add_le_add_iff_left, add_le_add_iff_left, mul_le_mul_iff_of_pos_right hsize,
      mul_le_mul_iff_of_pos_right hsize]
    omega

theorem row_ne_zero (ht : t.WellFormed) (hdim : t.dim = 2) :
    t.matrix.entry 0 0 ≠ 0 ∨ t.matrix.entry 0 1 ≠ 0 := by
  by_contra hzero
  have hdet := ht.determinant_planar hdim
  obtain ⟨hp, hr⟩ := not_or.mp hzero
  rw [not_not.mp hp, not_not.mp hr, zero_mul, zero_mul, sub_zero] at hdet
  exact ht.det_ne_zero hdet

/-- Some condition mentions the inner variable. -/
theorem exists_factor_ne_zero (ht : t.WellFormed) (hdim : t.dim = 2) :
    ∃ c ∈ innerConstraints d t, c.factor ≠ 0 := by
  have hsign : t.determinant.sign ≠ 0 := fun h0 => ht.det_ne_zero (Int.sign_eq_zero_iff_zero.mp h0)
  rcases row_ne_zero ht hdim with hp | hr
  · exact ⟨_, List.mem_cons_self, mul_ne_zero hsign hp⟩
  · exact ⟨_, List.mem_cons_of_mem _ List.mem_cons_self, mul_ne_zero hsign hr⟩

/-- The image of `(x, y)` is in the range of the outer loop and satisfies the conditions exactly if
`(x, y)` is in the domain. Where a condition does not mention the inner variable, the outer one is a
multiple of the coordinate that it is about, and its range says the same. -/
theorem region_iff (ht : t.WellFormed) (hdim : t.dim = 2) (h₁ : a₁ < b₁) (h₂ : a₂ < b₂) {lo hi : ℤ}
    (hlo : (projections ⟨[a₁, a₂], [b₁, b₂]⟩ t).min? = some lo)
    (hhi : (projections ⟨[a₁, a₂], [b₁, b₂]⟩ t).max? = some hi) :
    ((lo ≤ t.matrix.entry 0 0 * x + t.matrix.entry 0 1 * y ∧
      t.matrix.entry 0 0 * x + t.matrix.entry 0 1 * y ≤ hi) ∧
        ∀ c ∈ innerConstraints ⟨[a₁, a₂], [b₁, b₂]⟩ t, c.factor ≠ 0 →
          c.Holds (t.matrix.entry 0 0 * x + t.matrix.entry 0 1 * y)
            (t.matrix.entry 1 0 * x + t.matrix.entry 1 1 * y)) ↔
      (a₁ ≤ x ∧ x < b₁) ∧ a₂ ≤ y ∧ y < b₂ := by
  rw [innerConstraints_iff ht hdim]
  rw [min?_projections hdim (ht.square.trans hdim), Option.some_inj] at hlo
  rw [max?_projections hdim (ht.square.trans hdim), Option.some_inj] at hhi
  have hrow := row_ne_zero ht hdim
  generalize t.matrix.entry 0 0 = p at *
  generalize t.matrix.entry 0 1 = r at *
  subst hlo hhi
  constructor
  · rintro ⟨⟨hlo, hhi⟩, hy, hx⟩
    by_cases hp : p = 0
    · -- the outer value is `r * y`, and the condition about `y` is missing
      have hr : r ≠ 0 := hrow.resolve_left (not_not_intro hp)
      simp only [hp, zero_mul, min_self, max_self, zero_add] at hlo hhi
      have hyrange := (mul_between_iff hr (by omega)).mp ⟨hlo, hhi⟩
      exact ⟨hx hr, by omega⟩
    · by_cases hr : r = 0
      · -- the outer value is `p * x`, and the condition about `x` is missing
        simp only [hr, zero_mul, min_self, max_self, add_zero] at hlo hhi
        have hxrange := (mul_between_iff hp (by omega)).mp ⟨hlo, hhi⟩
        exact ⟨by omega, hy hp⟩
      · exact ⟨hx hr, hy hp⟩
  · rintro ⟨hx, hy⟩
    obtain ⟨hxlo, hxhi⟩ := mul_between (p := p) hx.1 (Int.le_sub_one_iff.mpr hx.2)
    obtain ⟨hylo, hyhi⟩ := mul_between (p := r) hy.1 (Int.le_sub_one_iff.mpr hy.2)
    exact ⟨⟨add_le_add hxlo hylo, add_le_add hxhi hyhi⟩, fun _ => hy, fun _ => hx⟩

theorem mem_tuples_planar_iff {q : Point} :
    q ∈ (planar d t s).tuples ↔ ∃ i j, q = [i, j] ∧
      i ∈ (Loop.mk (loopVar 0) (.const (outerRange d t s.outerStep).1)
        (.const (outerRange d t s.outerStep).2) s.outerStep).values [] ∧
      j ∈ (Loop.mk (loopVar 1) (innerRange d t s).1 (innerRange d t s).2 s.innerStep).values [i] := by
  simp only [tuples, planar, tuplesFrom, List.mem_flatMap, List.mem_singleton, List.nil_append,
    List.cons_append]
  constructor
  · rintro ⟨i, hi, j, hj, rfl⟩
    exact ⟨i, j, rfl, hi, hj⟩
  · rintro ⟨i, j, rfl, hi, hj⟩
    exact ⟨i, hi, j, hj, rfl⟩

/-- The tuples of the planar nest are the images of the points of the domain. -/
theorem mem_tuples_planar (ht : t.WellFormed) (hdim : t.dim = 2) (hd : d.WellFormed)
    (hddim : d.dim = 2) (houter : 0 < s.outerStep) (hinner : 0 < s.innerStep)
    (hspans : ∀ i j, s.Spans i j ↔ ∃ x y,
      t.matrix.entry 0 0 * x + t.matrix.entry 0 1 * y = i ∧
        t.matrix.entry 1 0 * x + t.matrix.entry 1 1 * y = j) (q : Point) :
    q ∈ (planar d t s).tuples ↔ ∃ p, d.contains p ∧ t.apply p = q := by
  obtain ⟨a₁, a₂, b₁, b₂, rfl, h₁, h₂⟩ := hd.planar hddim
  obtain ⟨lo, hlo⟩ : ∃ lo, (projections ⟨[a₁, a₂], [b₁, b₂]⟩ t).min? = some lo :=
    ⟨_, min?_projections hdim (ht.square.trans hdim)⟩
  obtain ⟨hi, hhi⟩ : ∃ hi, (projections ⟨[a₁, a₂], [b₁, b₂]⟩ t).max? = some hi :=
    ⟨_, max?_projections hdim (ht.square.trans hdim)⟩
  rw [mem_tuples_planar_iff]
  constructor
  · rintro ⟨i, j, rfl, hi, hj⟩
    obtain ⟨hrange, hdvd⟩ := (mem_outer_values houter hlo hhi).mp hi
    obtain ⟨hholds, hclass⟩ :=
      (mem_inner_values houter hinner (exists_factor_ne_zero ht hdim) hdvd).mp hj
    obtain ⟨x, y, rfl, rfl⟩ :=
      (hspans i j).mp ((LatticeSteps.spans_iff houter.ne').mpr ⟨hdvd, hclass⟩)
    exact ⟨[x, y], Domain.contains_planar.mpr
      ⟨x, y, rfl, (region_iff ht hdim h₁ h₂ hlo hhi).mp ⟨hrange, hholds⟩⟩, ht.apply_planar hdim x y⟩
  · rintro ⟨p, hp, rfl⟩
    obtain ⟨x, y, rfl, hxy⟩ := Domain.contains_planar.mp hp
    obtain ⟨hrange, hholds⟩ := (region_iff ht hdim h₁ h₂ hlo hhi).mpr hxy
    obtain ⟨hdvd, hclass⟩ :=
      (LatticeSteps.spans_iff houter.ne').mp ((hspans _ _).mpr ⟨x, y, rfl, rfl⟩)
    exact ⟨_, _, ht.apply_planar hdim x y, (mem_outer_values houter hlo hhi).mpr ⟨hrange, hdvd⟩,
      (mem_inner_values houter hinner (exists_factor_ne_zero ht hdim) hdvd).mpr
        ⟨hholds, hclass⟩⟩

/-- The planar derivation realizes every transform of the plane. -/
theorem exists_derivePlanar (hd : d.WellFormed) (hddim : d.dim = 2) (ht : t.WellFormed)
    (hdim : t.dim = 2) : ∃ nest, derivePlanar d t = .ok nest ∧ nest.Realizes d t := by
  obtain ⟨s, hs, houter, hinner, hspans⟩ := LatticeSteps.ofTransform_eq_ok ht hdim
  refine ⟨planar d t s, derivePlanar_eq_ok hdim hddim hs, rfl, rfl, rfl, hd, ht.proper,
    hddim.trans hdim.symm, ?_, ?_, mem_tuples_planar ht hdim hd hddim houter hinner hspans⟩
  · show ∀ l ∈ (planar d t s).loops, 0 < l.step
    simp [planar, houter, hinner]
  · exact definedFrom_of_forall (by simp [planar, Bound.isDefined, innerRange_defined houter.ne']) []

/-- The derivation succeeds for every domain and every transform of the plane. Its nest has positive
strides, and its walk goes through the images of the points of the domain in lexicographic order,
each of them once and nothing else, and through these points behind them. -/
theorem derivePlanar_enumerates (hd : d.WellFormed) (hddim : d.dim = 2) (ht : t.WellFormed)
    (hdim : t.dim = 2) :
    ∃ nest ps, derivePlanar d t = .ok nest ∧ nest.Forward ∧ nest.Enumerates d t ps := by
  obtain ⟨nest, hnest, hreal⟩ := exists_derivePlanar hd hddim ht hdim
  exact ⟨nest, nest.iterations, hnest, hreal.forward, hreal.enumerates⟩

/-- A transform onto every second point of the plane, with a negative determinant. -/
theorem derivePlanar_index_two :
    ∃ nest ps, derivePlanar ⟨[0, -1], [3, 2]⟩ ⟨⟨2, 2, #v[#v[1, 1], #v[1, -1]]⟩, -2⟩ = .ok nest ∧
      nest.Forward ∧
        nest.Enumerates ⟨[0, -1], [3, 2]⟩ ⟨⟨2, 2, #v[#v[1, 1], #v[1, -1]]⟩, -2⟩ ps := by
  have hdomain : Domain.WellFormed ⟨[0, -1], [3, 2]⟩ :=
    .cons (by decide) (.cons (by decide) .nil)
  have hmade : Transform.Constructed ⟨⟨2, 2, #v[#v[1, 1], #v[1, -1]]⟩, -2⟩ :=
    .ofMatrix (m := ⟨2, 2, #v[#v[1, 1], #v[1, -1]]⟩) (by decide)
  exact derivePlanar_enumerates hdomain rfl hmade.wellFormed rfl

end Nest

end AffineLoops
