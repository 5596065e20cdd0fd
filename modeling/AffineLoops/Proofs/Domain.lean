import AffineLoops.Domain
import Mathlib.Data.Fin.Tuple.Basic
import Mathlib.Data.Int.Order.Basic
import Mathlib.Data.List.Forall2
import Mathlib.Data.List.Lex
import Mathlib.Data.List.Nodup
import Mathlib.Tactic.Ring
/-!
# Enumeration of domains

The points of a box are the tuples of coordinates in its ranges. Going from one point to the next
visits them in lexicographic order, and the position of a point in this order is what the row-major
formula computes. So positions identify the points of a domain.

## Main definitions

- `Domain.WellFormed` — no axis is empty
- `Domain.Fits`, `Domain.exists_contains_shift_iff` — the distances between points
- `Domain.box` — the points, axis by axis
- `Domain.Follows` — a successor function goes through a list
- `Domain.points_eq_box`, `Domain.mem_points` — the enumeration is complete
- `Domain.linearIndex?_eq_some` — positions in the enumeration
- `Domain.points_exact` — enumeration, number and position together
-/

namespace AffineLoops.Domain

variable {d : Domain} {ls us : Point}

/-- Every axis has a point. -/
def WellFormed (d : Domain) : Prop :=
  List.Forall₂ (· < ·) d.lower d.upper

/-- Checked construction only gives domains without empty axes. -/
theorem ofBounds_wellFormed {lower upper : Point} (h : ofBounds lower upper = .ok d) :
    d.WellFormed := by
  unfold ofBounds at h
  split at h
  · cases h
  · next hlen =>
    split at h
    · cases h
    · next hfind =>
      cases h
      refine List.forall₂_iff_zip.mpr ⟨not_not.mp hlen, fun {l u} hmem => ?_⟩
      obtain ⟨k, hk⟩ := List.mem_iff_getElem?.mp hmem
      have hentry := List.find?_eq_none.mp hfind ((l, u), k) (List.mk_mem_zipIdx_iff_getElem?.mpr hk)
      simpa using hentry

theorem length_of_contains {p : Point} (h : d.contains p) : p.length = d.dim := by
  rw [contains, Bool.and_eq_true, beq_iff_eq] at h
  exact h.1

/-- A well-formed domain of the plane, by its four bounds. -/
theorem WellFormed.planar (h : d.WellFormed) (hdim : d.dim = 2) :
    ∃ a₁ a₂ b₁ b₂, d = ⟨[a₁, a₂], [b₁, b₂]⟩ ∧ a₁ < b₁ ∧ a₂ < b₂ := by
  obtain ⟨lower, upper⟩ := d
  obtain ⟨a₁, a₂, rfl⟩ := List.length_eq_two.mp hdim
  cases h with
  | cons h₁ h =>
    cases h with
    | cons h₂ h =>
      cases h
      exact ⟨_, _, _, _, rfl, h₁, h₂⟩

theorem rect_eq_ok_iff {a₁ a₂ b₁ b₂ : ℤ} :
    rect a₁ b₁ a₂ b₂ = .ok d ↔ (a₁ < b₁ ∧ a₂ < b₂) ∧ ⟨[a₁, a₂], [b₁, b₂]⟩ = d := by
  by_cases h₁ : b₁ ≤ a₁
  · have hempty : ¬a₁ < b₁ := by omega
    simp [rect, ofBounds, h₁, hempty]
  · by_cases h₂ : b₂ ≤ a₂
    · have hempty : ¬a₂ < b₂ := by omega
      simp [rect, ofBounds, h₁, h₂, hempty]
    · simp [rect, ofBounds, h₁, h₂, not_le.mp h₁, not_le.mp h₂]

theorem contains_planar {a₁ a₂ b₁ b₂ : ℤ} {p : Point} :
    contains ⟨[a₁, a₂], [b₁, b₂]⟩ p ↔
      ∃ x y, p = [x, y] ∧ (a₁ ≤ x ∧ x < b₁) ∧ a₂ ≤ y ∧ y < b₂ := by
  simp only [contains, dim, List.length_cons, List.length_nil, Bool.and_eq_true, beq_iff_eq]
  constructor
  · rintro ⟨hlen, hwithin⟩
    obtain ⟨x, y, rfl⟩ := List.length_eq_two.mp hlen
    exact ⟨x, y, rfl, by simpa [within] using hwithin⟩
  · rintro ⟨x, y, rfl, hx, hy⟩
    exact ⟨rfl, by simp [within, hx, hy]⟩

/-- A well-formed domain, by its bounds on every axis. -/
theorem WellFormed.exists_ofFn {n : ℕ} (h : d.WellFormed) (hdim : d.dim = n) :
    ∃ l u : Fin n → ℤ, d = ⟨List.ofFn l, List.ofFn u⟩ ∧ ∀ i, l i < u i := by
  obtain ⟨lower, upper⟩ := d
  obtain rfl : lower.length = n := hdim
  have hlen : upper.length = lower.length := (List.Forall₂.length_eq h).symm
  refine ⟨lower.get, fun i => upper[i], ?_, fun i => ?_⟩
  · congr 1
    · exact List.ext_getElem (by simp) fun i h₁ h₂ => by simp
    · exact List.ext_getElem (by simp [hlen]) fun i h₁ h₂ => by simp
  · exact List.Forall₂.get h i.2 (hlen.symm ▸ i.2)

theorem contains_ofFn {n : ℕ} {l u : Fin n → ℤ} {p : Point} :
    contains ⟨List.ofFn l, List.ofFn u⟩ p ↔
      p.length = n ∧ ∀ i : Fin n, l i ≤ p.getD i 0 ∧ p.getD i 0 < u i := by
  simp only [contains, dim, List.length_ofFn, Bool.and_eq_true, beq_iff_eq]
  refine and_congr_right fun hlen => ?_
  induction n generalizing p with
  | zero => simp [within]
  | succ n ih =>
    obtain ⟨x, p, rfl⟩ := List.exists_cons_of_length_eq_add_one hlen
    rw [List.ofFn_succ, List.ofFn_succ, within, Bool.and_eq_true, ih (by simpa using hlen),
      Fin.forall_fin_succ]
    simp

/-! ### Points at a distance -/

/-- The offset is shorter than the domain on every axis. -/
def Fits (d : Domain) (o : Point) : Prop :=
  List.Forall₂ (fun x e => |x| < e) o d.extents

theorem fits_ofFn {n : ℕ} {l u : Fin n → ℤ} {o : Point} :
    Fits ⟨List.ofFn l, List.ofFn u⟩ o ↔
      o.length = n ∧ ∀ i : Fin n, |o.getD i 0| < u i - l i := by
  rw [Fits, List.forall₂_iff_get]
  simp only [extents, List.length_zipWith, List.length_ofFn, min_self, List.get_eq_getElem,
    List.getElem_zipWith, List.getElem_ofFn]
  refine and_congr_right fun hlen => ⟨fun h i => ?_, fun h i hi hi' => ?_⟩
  · have hi : (i : ℕ) < o.length := hlen ▸ i.2
    simpa [List.getD_eq_getElem?_getD, hi] using h i hi i.2
  · simpa [List.getD_eq_getElem?_getD, hi] using h ⟨i, hi'⟩

/-- Two points of the domain have this distance exactly if it fits. -/
theorem exists_contains_shift_iff (h : d.WellFormed) {o : Point} (ho : o.length = d.dim) :
    (∃ p, d.contains p ∧ d.contains (p.shift o)) ↔ d.Fits o := by
  obtain ⟨n, hn⟩ : ∃ n, d.dim = n := ⟨_, rfl⟩
  obtain ⟨l, u, rfl, hlu⟩ := h.exists_ofFn hn
  rw [hn] at ho
  simp only [contains_ofFn, fits_ofFn, abs_lt]
  have hcoord : ∀ p : Point, p.length = n → ∀ i : Fin n,
      (p.shift o).getD i 0 = p.getD i 0 + o.getD i 0 := by
    intro p hp i
    have hi : (i : ℕ) < p.length := hp ▸ i.2
    have hi' : (i : ℕ) < o.length := ho ▸ i.2
    simp [Point.shift, List.getD_eq_getElem?_getD, hi, hi']
  constructor
  · rintro ⟨p, ⟨hp, hrange⟩, -, hshift⟩
    refine ⟨ho, fun i => ?_⟩
    have hi := hrange i
    have hi' := hshift i
    rw [hcoord p hp] at hi'
    omega
  · rintro ⟨-, hfits⟩
    -- the least point from which the offset does not lead below the domain
    obtain ⟨p, hp⟩ : ∃ p : Point, p = List.ofFn fun i => l i + max 0 (-o.getD i 0) := ⟨_, rfl⟩
    have hlen : p.length = n := by rw [hp, List.length_ofFn]
    have hvalue : ∀ i : Fin n, p.getD i 0 = l i + max 0 (-o.getD i 0) := by
      intro i
      simp [hp, List.getD_eq_getElem?_getD]
    refine ⟨p, ⟨hlen, fun i => ?_⟩, by simp [Point.shift, hlen, ho], fun i => ?_⟩
    · have hi := hfits i
      have hl := hlu i
      rw [hvalue]
      omega
    · have hi := hfits i
      have hl := hlu i
      rw [hcoord p hlen, hvalue]
      omega

/-! ### The points of a box -/

/-- The coordinates along one axis. -/
def axis (l u : ℤ) : List ℤ :=
  (List.range (u - l).toNat).map fun k : ℕ => l + k

/-- The points of a box, the first axis changing slowest. -/
def box : Point → Point → List Point
  | l :: ls, u :: us => (axis l u).flatMap fun x => (box ls us).map (x :: ·)
  | _, _ => [[]]

theorem mem_axis {l u x : ℤ} : x ∈ axis l u ↔ l ≤ x ∧ x < u := by
  simp only [axis, List.mem_map, List.mem_range]
  constructor
  · rintro ⟨k, hk, rfl⟩
    omega
  · rintro ⟨hl, hu⟩
    exact ⟨(x - l).toNat, by omega, by omega⟩

theorem axis_eq_cons {l u : ℤ} (h : l < u) : axis l u = l :: axis (l + 1) u := by
  have hlen : (u - l).toNat = (u - (l + 1)).toNat + 1 := by omega
  rw [axis, axis, hlen, List.range_succ_eq_map, List.map_cons, List.map_map, Nat.cast_zero, add_zero]
  congr 2
  funext k
  simp only [Function.comp_apply, Nat.cast_succ]
  ring

theorem axis_eq_nil {l u : ℤ} (h : u ≤ l) : axis l u = [] := by
  rw [axis, Int.toNat_of_nonpos (by omega), List.range_zero, List.map_nil]

theorem mem_box (hlen : ls.length = us.length) {p : Point} :
    p ∈ box ls us ↔ p.length = ls.length ∧ within ls us p := by
  induction ls generalizing us p with
  | nil =>
    obtain rfl := List.length_eq_zero_iff.mp hlen.symm
    cases p <;> simp [box, within]
  | cons l ls ih =>
    obtain ⟨u, us, rfl⟩ := List.exists_cons_of_length_eq_add_one hlen.symm
    have hlen' : ls.length = us.length := by simpa using hlen
    cases p with
    | nil => simp [box]
    | cons x xs =>
      have hinner : x :: xs ∈ box (l :: ls) (u :: us) ↔ x ∈ axis l u ∧ xs ∈ box ls us := by
        simp [box]
      rw [hinner, ih hlen', mem_axis, within]
      simp only [List.length_cons, Nat.add_right_cancel_iff, Bool.and_eq_true, decide_eq_true_eq]
      tauto

theorem length_box_cons (l u : ℤ) (ls us : Point) :
    (box (l :: ls) (u :: us)).length = (u - l).toNat * (box ls us).length := by
  simp [box, axis, List.length_flatMap, Function.comp_def, List.map_const']

theorem length_box (ls us : Point) :
    (box ls us).length = ((List.zipWith (fun l u => u - l) ls us).map Int.toNat).foldr (· * ·) 1 := by
  induction ls generalizing us with
  | nil => rfl
  | cons l ls ih =>
    cases us with
    | nil => rfl
    | cons u us =>
      rw [length_box_cons, ih, List.zipWith_cons_cons, List.map_cons, List.foldr_cons]

theorem pairwise_axis (l u : ℤ) : (axis l u).Pairwise (· < ·) := by
  rw [axis, List.pairwise_map]
  exact List.pairwise_lt_range.imp fun hab => by omega

theorem pairwise_box (ls us : Point) : (box ls us).Pairwise (· < ·) := by
  induction ls generalizing us with
  | nil => exact List.pairwise_singleton _ _
  | cons l ls ih =>
    cases us with
    | nil => exact List.pairwise_singleton _ _
    | cons u us =>
      rw [box, List.pairwise_flatMap]
      refine ⟨fun x _ => ?_, ?_⟩
      · rw [List.pairwise_map]
        exact (ih us).imp fun h => List.cons_lt_cons_iff.mpr (Or.inr ⟨rfl, h⟩)
      · refine (pairwise_axis l u).imp fun {x y} hxy p hp q hq => ?_
        obtain ⟨p', -, rfl⟩ := List.mem_map.mp hp
        obtain ⟨q', -, rfl⟩ := List.mem_map.mp hq
        exact List.cons_lt_cons_iff.mpr (Or.inl hxy)

/-! ### Going from point to point -/

/-- From `start`, the function `next` goes through the list and then to `stop`. -/
def Follows (next : Point → Option Point) : Option Point → List Point → Option Point → Prop
  | start, [], stop => start = stop
  | start, p :: ps, stop => start = some p ∧ Follows next (next p) ps stop

theorem Follows.append {next : Point → Option Point} {start middle stop : Option Point}
    {ps qs : List Point} (hp : Follows next start ps middle) (hq : Follows next middle qs stop) :
    Follows next start (ps ++ qs) stop := by
  induction ps generalizing start with
  | nil =>
    rw [Follows] at hp
    rwa [List.nil_append, hp]
  | cons p ps ih => exact ⟨hp.1, ih hp.2⟩

/-- The first point with the coordinate `x` on the first axis, if the axis has it. -/
def firstAt (ls : Point) (u x : ℤ) : Option Point :=
  if x < u then some (x :: ls) else none

/-- What follows when the later axes have moved on, or are exhausted. -/
def carry (ls : Point) (u x : ℤ) : Option Point → Option Point
  | some xs => some (x :: xs)
  | none => firstAt ls u (x + 1)

theorem advance_cons (l u x : ℤ) (xs : Point) :
    advance (l :: ls) (u :: us) (x :: xs) = carry ls u x (advance ls us xs) := by
  rw [advance]
  cases advance ls us xs <;> rfl

/-- One pass over the later axes, for a fixed coordinate on the first. -/
theorem Follows.map_cons {l u x : ℤ} {start stop : Option Point} {ps : List Point}
    (h : Follows (advance ls us) start ps stop) :
    Follows (advance (l :: ls) (u :: us)) (carry ls u x start) (ps.map (x :: ·))
      (carry ls u x stop) := by
  induction ps generalizing start with
  | nil =>
    rw [Follows] at h
    rw [h]
    rfl
  | cons p ps ih =>
    obtain ⟨rfl, hrest⟩ := h
    refine ⟨rfl, ?_⟩
    rw [advance_cons]
    exact ih hrest

/-- The successor function goes through the whole box. -/
theorem follows_box (h : List.Forall₂ (· < ·) ls us) :
    Follows (advance ls us) (some ls) (box ls us) none := by
  induction h with
  | nil => exact ⟨rfl, rfl⟩
  | @cons l u ls us hlu _ ih =>
    -- the coordinate on the first axis counts up to its bound, one pass for each value
    have hpasses : ∀ n x, (u - x).toNat = n → Follows (advance (l :: ls) (u :: us))
        (firstAt ls u x) ((axis x u).flatMap fun y => (box ls us).map (y :: ·)) none := by
      intro n
      induction n with
      | zero =>
        intro x hx
        rw [axis_eq_nil (by omega), firstAt, if_neg (by omega)]
        rfl
      | succ n ihn =>
        intro x hx
        rw [axis_eq_cons (by omega), List.flatMap_cons, firstAt, if_pos (by omega)]
        exact (ih.map_cons (x := x)).append (ihn (x + 1) (by omega))
    have hall := hpasses (u - l).toNat l rfl
    rwa [firstAt, if_pos hlu] at hall

theorem pointsFrom_of_follows {start : Option Point} {ps : List Point}
    (h : Follows d.successor? start ps none) (n : ℕ) : d.pointsFrom n start = ps.take n := by
  induction ps generalizing start n with
  | nil =>
    rw [Follows] at h
    rw [h, List.take_nil]
    cases n <;> rfl
  | cons p ps ih =>
    obtain ⟨rfl, hrest⟩ := h
    cases n with
    | zero => rfl
    | succ n => rw [pointsFrom, ih hrest, List.take_succ_cons]

/-- The enumeration lists the points of the box, and ends by itself after the last of them. -/
theorem firstPoints_eq_take (h : d.WellFormed) (n : ℕ) :
    d.firstPoints n = (box d.lower d.upper).take n :=
  pointsFrom_of_follows (follows_box h) n

/-- All points of a domain are the points of the box. -/
theorem points_eq_box (h : d.WellFormed) : d.points = box d.lower d.upper := by
  rw [points, firstPoints_eq_take h]
  exact List.take_of_length_le (length_box d.lower d.upper).le

theorem mem_points (h : d.WellFormed) {p : Point} : p ∈ d.points ↔ d.contains p := by
  rw [points_eq_box h, mem_box h.length_eq, contains, Bool.and_eq_true, beq_iff_eq, dim]

theorem length_points (h : d.WellFormed) : d.points.length = d.size := by
  rw [points_eq_box h, length_box]
  rfl

theorem pairwise_points (h : d.WellFormed) : d.points.Pairwise (· < ·) := by
  rw [points_eq_box h]
  exact pairwise_box d.lower d.upper

/-! ### Positions -/

/-- Consecutive blocks of one length. -/
theorem range_mul (n v : ℕ) :
    ((List.range n).flatMap fun k => (List.range v).map (k * v + ·)) = List.range (n * v) := by
  induction n with
  | zero => simp
  | succ n ih => rw [List.range_succ, List.flatMap_append, ih, List.flatMap_singleton, Nat.succ_mul,
      List.range_add]

/-- The position along the first axes counts whole passes over the later ones. -/
theorem rowMajor_eq (start : ℕ) {p : Point} (h : p ∈ box ls us) (hlen : ls.length = us.length) :
    rowMajor start ls us p = start * (box ls us).length + rowMajor 0 ls us p := by
  induction ls generalizing start us p with
  | nil => simp [rowMajor, box]
  | cons l ls ih =>
    obtain ⟨u, us, rfl⟩ := List.exists_cons_of_length_eq_add_one hlen.symm
    have hlen' : ls.length = us.length := by simpa using hlen
    obtain ⟨x, -, hp⟩ := List.mem_flatMap.mp h
    obtain ⟨xs, hxs, rfl⟩ := List.mem_map.mp hp
    rw [rowMajor, rowMajor, ih _ hxs hlen', ih (0 * (u - l).toNat + (x - l).toNat) hxs hlen',
      length_box_cons]
    ring

/-- Read off in order, the positions count up from zero. -/
theorem map_rowMajor_box (hlen : ls.length = us.length) :
    (box ls us).map (rowMajor 0 ls us) = List.range (box ls us).length := by
  induction ls generalizing us with
  | nil =>
    obtain rfl := List.length_eq_zero_iff.mp hlen.symm
    rfl
  | cons l ls ih =>
    obtain ⟨u, us, rfl⟩ := List.exists_cons_of_length_eq_add_one hlen.symm
    have hlen' : ls.length = us.length := by simpa using hlen
    have hblock : ∀ k : ℕ, ((box ls us).map ((l + (k : ℤ)) :: ·)).map
        (rowMajor 0 (l :: ls) (u :: us)) =
          (List.range (box ls us).length).map (k * (box ls us).length + ·) := by
      intro k
      rw [← ih hlen', List.map_map, List.map_map]
      refine List.map_congr_left fun xs hxs => ?_
      have hk : 0 * (u - l).toNat + (l + (k : ℤ) - l).toNat = k := by omega
      rw [Function.comp_apply, Function.comp_apply, rowMajor, hk, rowMajor_eq k hxs hlen']
    rw [length_box_cons, ← range_mul, box, List.map_flatMap, axis, List.flatMap_map]
    exact congrArg (List.flatMap · _) (funext hblock)

/-- The linear index of a point is its position in the enumeration. -/
theorem linearIndex?_eq_some (h : d.WellFormed) {p : Point} {k : ℕ} :
    d.linearIndex? p = some k ↔ d.points[k]? = some p := by
  have hpos : ∀ i q, d.points[i]? = some q → rowMajor 0 d.lower d.upper q = i := by
    -- entry `i` of the list of all positions is `i`
    intro i q hq
    have hmap := congrArg (·[i]?) (map_rowMajor_box h.length_eq)
    rw [points_eq_box h] at hq
    obtain ⟨hi, -⟩ := List.getElem?_eq_some_iff.mp hq
    simp only [List.getElem?_map, hq, Option.map_some, List.getElem?_range hi] at hmap
    exact Option.some_inj.mp hmap
  unfold linearIndex?
  constructor
  · intro hindex
    split at hindex
    · next hcontains =>
      obtain ⟨i, hi⟩ := List.mem_iff_getElem?.mp ((mem_points h).mpr hcontains)
      rw [hpos i p hi] at hindex
      rwa [← Option.some_inj.mp hindex]
    · cases hindex
  · intro hk
    rw [if_pos ((mem_points h).mp (List.mem_of_getElem? hk)), hpos k p hk]

theorem linearIndex?_eq_none {p : Point} : d.linearIndex? p = none ↔ ¬d.contains p := by
  simp [linearIndex?]

theorem exists_linearIndex?_iff {p : Point} : (∃ k, d.linearIndex? p = some k) ↔ d.contains p := by
  simp [linearIndex?]

theorem linearIndex?_inj (h : d.WellFormed) {p q : Point} {k : ℕ}
    (hp : d.linearIndex? p = some k) (hq : d.linearIndex? q = some k) : p = q := by
  rw [linearIndex?_eq_some h] at hp hq
  exact Option.some_inj.mp (hp.symm.trans hq)

/-- Every point of a domain has one place in the enumeration, and no other point has any. -/
theorem count_points (h : d.WellFormed) (p : Point) :
    d.points.count p = if d.contains p then 1 else 0 := by
  have hnodup : d.points.Nodup := (pairwise_points h).imp ne_of_lt
  rw [hnodup.count]
  simp only [mem_points h]

/-- Enumeration, number and position of the points of a domain fit together. However many points the
enumeration is asked for, it gives those that there are and ends after them; it is strictly increasing,
lists every point of the domain once and nothing else, and has the computed length. Its `k`-th point
has the position `k`, and the points outside the domain are those without a position. -/
theorem points_exact {lower upper : Point} (h : ofBounds lower upper = .ok d) :
    (∀ n, d.firstPoints n = d.points.take n) ∧ d.points.Pairwise (· < ·) ∧
      (∀ p, d.points.count p = if d.contains p then 1 else 0) ∧ d.points.length = d.size ∧
      (∀ k < d.size, ∃ p, d.points[k]? = some p ∧ d.linearIndex? p = some k) ∧
      ∀ p, d.linearIndex? p = none ↔ ¬d.contains p := by
  have hd := ofBounds_wellFormed h
  refine ⟨fun n => ?_, pairwise_points hd, count_points hd, length_points hd, fun k hk => ?_,
    fun p => linearIndex?_eq_none⟩
  · rw [points_eq_box hd, firstPoints_eq_take hd]
  · rw [← length_points hd] at hk
    have hpoint : d.points[k]? = some d.points[k] := List.getElem?_eq_getElem hk
    exact ⟨_, hpoint, (linearIndex?_eq_some hd).mpr hpoint⟩

/-- A box with negative coordinates, asked for more points than it has, and the domain without axes,
which has one point. -/
theorem points_exact_shapes :
    (firstPoints ⟨[-1, 2], [1, 5]⟩ 10 = points ⟨[-1, 2], [1, 5]⟩ ∧
      List.count [0, 2] (points ⟨[-1, 2], [1, 5]⟩) = 1 ∧
      (∃ p, (points ⟨[-1, 2], [1, 5]⟩)[4]? = some p ∧
        linearIndex? ⟨[-1, 2], [1, 5]⟩ p = some 4) ∧
      linearIndex? ⟨[-1, 2], [1, 5]⟩ [0, 5] = none) ∧
    (points ⟨[], []⟩).length = 1 ∧ linearIndex? ⟨[], []⟩ [0] = none := by
  obtain ⟨hfirst, -, hcount, -, hindex, hnone⟩ :=
    points_exact (rfl : ofBounds [-1, 2] [1, 5] = .ok ⟨[-1, 2], [1, 5]⟩)
  obtain ⟨-, -, -, hlength, -, hnone'⟩ := points_exact (rfl : ofBounds [] [] = .ok ⟨[], []⟩)
  exact ⟨⟨(hfirst 10).trans (List.take_of_length_le (by decide)), hcount [0, 2], hindex 4 (by decide),
    (hnone [0, 5]).mpr (by decide)⟩, hlength, (hnone' [0]).mpr (by decide)⟩

end AffineLoops.Domain
