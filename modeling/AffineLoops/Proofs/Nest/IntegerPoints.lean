import AffineLoops.Proofs.Nest.Bound
import AffineLoops.Proofs.Nest.Walk
/-!
# The integer points of a nest

The tuples of a nest are described level by level: the value of a loop lies between its bounds,
which are evaluated for the values of the loops around it, and is reached from the lower one by
whole strides. A walk goes through all tuples of this kind and no others, whatever the bounds are
made of.

## Main definitions

- `Loop.Admits` — a value that a loop reaches, for given values of the loops around
- `Nest.append_mem_tuplesFrom_iff` — the tuples, level by level
- `Nest.transformedPoints_exact` — what a walk visits, and in which order
-/

namespace AffineLoops

/-- The value lies between the bounds of the loop, whole strides after the lower one. -/
def Loop.Admits (l : Loop) (outer : Point) (x : ℤ) : Prop :=
  (l.lower.eval outer ≤ x ∧ x ≤ l.upper.eval outer) ∧ l.step ∣ x - l.lower.eval outer

instance (l : Loop) (outer : Point) (x : ℤ) : Decidable (l.Admits outer x) :=
  inferInstanceAs (Decidable (_ ∧ _))

theorem Loop.mem_values_iff_admits {l : Loop} {outer : Point} (hstep : 0 < l.step) {x : ℤ} :
    x ∈ l.values outer ↔ l.Admits outer x :=
  mem_values hstep

namespace Nest

variable {nest : Nest}

/-- A tuple of some loops is a value of the first one and a tuple of the others inside it. -/
theorem append_cons_mem_tuplesFrom {l : Loop} {loops : List Loop} {outer r : Point} {v : ℤ} :
    outer ++ v :: r ∈ tuplesFrom (l :: loops) outer ↔
      v ∈ l.values outer ∧ outer ++ [v] ++ r ∈ tuplesFrom loops (outer ++ [v]) := by
  have hsplit : outer ++ v :: r = outer ++ [v] ++ r := by simp
  rw [tuplesFrom, List.mem_flatMap]
  constructor
  · rintro ⟨w, hw, hr⟩
    -- the tuples inside the turn `w` have `w` where this one has `v`
    obtain ⟨s, hs, -⟩ := exists_append_of_mem_tuplesFrom hr
    obtain rfl : v = w := by
      rw [List.append_assoc, List.append_cancel_left_eq] at hs
      exact (List.cons_eq_cons.mp hs).1
    exact ⟨hw, hsplit ▸ hr⟩
  · rintro ⟨hv, hr⟩
    exact ⟨v, hv, hsplit ▸ hr⟩

/-- The values of some loops make a tuple if each of them is admitted after those before it. -/
theorem append_mem_tuplesFrom_iff {loops : List Loop} (hstep : ∀ l ∈ loops, 0 < l.step)
    {outer r : Point} (hlen : r.length = loops.length) :
    outer ++ r ∈ tuplesFrom loops outer ↔
      ∀ (k : ℕ) (l : Loop) (x : ℤ), loops[k]? = some l → r[k]? = some x →
        l.Admits (outer ++ r.take k) x := by
  induction loops generalizing outer r with
  | nil =>
    obtain rfl := List.length_eq_zero_iff.mp hlen
    simp [tuplesFrom]
  | cons l loops ih =>
    obtain ⟨v, r, rfl⟩ := List.exists_cons_of_length_eq_add_one hlen
    obtain ⟨hl, hloops⟩ := List.forall_mem_cons.mp hstep
    rw [append_cons_mem_tuplesFrom, Loop.mem_values_iff_admits hl, ih hloops (by simpa using hlen)]
    constructor
    · rintro ⟨hv, hrest⟩ k l' x hl' hx
      cases k with
      | zero =>
        cases hl'
        cases hx
        simpa using hv
      | succ k => simpa using hrest k l' x hl' hx
    · intro hall
      refine ⟨by simpa using hall 0 l v rfl rfl, fun k l' x hl' hx => ?_⟩
      simpa using hall (k + 1) l' x hl' hx

/-- Bounds that are defined and strides that are positive, whatever the bounds are made of, make the
walk end. It goes through a strictly increasing list, whose members are the tuples with a value for
every loop, between the bounds of the loop and whole strides after the lower one, where the bounds
are evaluated for the values of the loops around. -/
theorem transformedPoints_exact (hstep : ∀ l ∈ nest.loops, 0 < l.step)
    (hdefined : ∀ l ∈ nest.loops, l.lower.isDefined ∧ l.upper.isDefined) :
    ∃ qs, nest.transformedPoints = .ok qs ∧
      (∀ (σ : Type) (f : Point → Stateful σ Unit), nest.walk f = forM qs f) ∧
      qs.Pairwise (· < ·) ∧ (∀ q ∈ qs, q.length = nest.depth) ∧
      ∀ q : Point, q.length = nest.depth → (q ∈ qs ↔
        ∀ (k : ℕ) (l : Loop) (x : ℤ), nest.loops[k]? = some l → q[k]? = some x →
          (l.lower.eval (q.take k) ≤ x ∧ x ≤ l.upper.eval (q.take k)) ∧
            l.step ∣ x - l.lower.eval (q.take k)) := by
  have hdef : nest.Defined := definedFrom_of_forall (fun l hl => (hdefined l hl).symm) []
  refine ⟨nest.tuples, transformedPoints_eq_ok hstep hdef, fun σ f => walk_eq_forM hstep hdef f,
    pairwise_tuples hstep, fun q hq => length_of_mem_tuples hq, fun q hq => ?_⟩
  change [] ++ q ∈ tuplesFrom nest.loops [] ↔ _
  exact append_mem_tuplesFrom_iff hstep hq

/-- A loop in strides of three, up to the larger one of two constants. -/
def outerStair : Loop :=
  ⟨"c0", .const (-1), .max [.const 2, .affine ⟨[], 9, 2, .ceil⟩], 3⟩

/-- A loop over the even numbers in a range that moves and grows with the outer loop. -/
def middleStair : Loop :=
  ⟨"c1", .aligned (.affine (.linear [1] 2)) (.linear [] 0) 2, .affine (.linear [2] 1), 2⟩

/-- A loop up to the middle between the values of the loops around. -/
def innerStair : Loop :=
  ⟨"c2", .min [.const 3, .affine (.linear [1] 0)], .affine ⟨[1, 1], 0, 2, .floor⟩, 1⟩

/-- Three loops whose bounds are of all kinds. -/
def staircase : Nest where
  domain := ⟨[0], [1]⟩
  transform := .identity 1
  loops := [outerStair, middleStair, innerStair]
  inverse := .identity 1
  body := none

/-- The first turn of the outer loop visits nothing, and a value between two strides is left out. -/
theorem transformedPoints_staircase : ∃ qs, staircase.transformedPoints = .ok qs ∧
    qs.Pairwise (· < ·) ∧ [2, 4, 2] ∈ qs ∧ [2, 4, 3] ∈ qs ∧ [2, 4, 4] ∉ qs ∧ [2, 5, 2] ∉ qs ∧
      ∀ x y, [-1, x, y] ∉ qs := by
  obtain ⟨qs, hqs, -, hpairwise, -, hmem⟩ :=
    transformedPoints_exact (by decide : ∀ l ∈ staircase.loops, 0 < l.step) (by decide)
  have hadmits : ∀ x y z, [x, y, z] ∈ qs ↔ Loop.Admits outerStair [] x ∧
      Loop.Admits middleStair [x] y ∧ Loop.Admits innerStair [x, y] z := by
    intro x y z
    rw [hmem [x, y, z] rfl]
    constructor
    · intro hall
      exact ⟨hall 0 _ _ rfl rfl, hall 1 _ _ rfl rfl, hall 2 _ _ rfl rfl⟩
    · rintro ⟨hx, hy, hz⟩ k l v hl hv
      match k with
      | 0 => cases hl; cases hv; exact hx
      | 1 => cases hl; cases hv; exact hy
      | 2 => cases hl; cases hv; exact hz
      | _ + 3 => cases hl
  refine ⟨qs, hqs, hpairwise, (hadmits 2 4 2).mpr (by decide +kernel),
    (hadmits 2 4 3).mpr (by decide +kernel), (hadmits 2 4 4).not.mpr (by decide +kernel),
    (hadmits 2 5 2).not.mpr (by decide +kernel), fun x y => (hadmits (-1) x y).not.mpr ?_⟩
  rintro ⟨-, ⟨hbounds, -⟩, -⟩
  have hlower : middleStair.lower.eval [-1] = 2 := by decide +kernel
  have hupper : middleStair.upper.eval [-1] = -1 := by decide +kernel
  omega

end Nest

end AffineLoops
