import AffineLoops.Proofs.Grid
/-!
# Sequences of writes

A grid holds what was written to it. After any sequence of writes, some of which may have failed, it
still has its shape and one cell for every point of it. A cell has the content that the last successful
write at its point has given it, and the content that it was constructed with if there was none.

## Main definitions

- `WriteLog`, `WriteLog.write` — a grid under a sequence of writes
- `WriteLog.Records` — what a log says about the content of the cells
- `WriteLog.Records.write`, `WriteLog.Records.foldl_write` — one write, and a sequence of them
- `WriteLog.Records.taken_foldl` — which writes are taken
- `WriteLog.writes_exact` — a constructed grid after any sequence of writes
-/

namespace AffineLoops

variable {shape : Domain} {f : Point → Cell}

/-- A grid with the writes that it has taken. -/
structure WriteLog where
  grid : Grid
  /-- The points that were written with the values written there, the latest first. -/
  taken : List (Point × Cell)

namespace WriteLog

variable {s : WriteLog} {p : Point} {v : Cell}

/-- The log of a grid that was not written to yet. -/
def start (g : Grid) : WriteLog :=
  ⟨g, []⟩

/-- Writes a value at a point. The grid takes it, or the write fails and nothing happens. -/
def write (s : WriteLog) (w : Point × Cell) : WriteLog :=
  match s.grid.set w.1 w.2 with
  | .ok g => ⟨g, w :: s.taken⟩
  | .error _ => s

theorem write_of_ok {g : Grid} (h : s.grid.set p v = .ok g) :
    s.write (p, v) = ⟨g, (p, v) :: s.taken⟩ := by
  simp only [write, h]

theorem write_of_error {e : DomainError} (h : s.grid.set p v = .error e) : s.write (p, v) = s := by
  simp only [write, h]

/-- The grid has this shape, with a cell for every point of it, and a cell that was not written has the
content that `f` gives. -/
structure Records (s : WriteLog) (shape : Domain) (f : Point → Cell) : Prop where
  shape_eq : s.grid.shape = shape
  wellFormed : s.grid.WellFormed
  get_eq : ∀ p, shape.contains p → s.grid.get p = .ok ((s.taken.lookup p).getD (f p))

theorem records_start (hd : shape.WellFormed) (f : Point → Cell) :
    (start (.ofFn shape f)).Records shape f :=
  ⟨rfl, Grid.ofFn_wellFormed hd f, fun _ hp => Grid.get_ofFn hd f hp⟩

/-- A write that succeeds replaces the content of its own cell, since no other point has the same
position; one that fails replaces nothing. -/
theorem Records.write (hs : s.Records shape f) (hd : shape.WellFormed) (w : Point × Cell) :
    (s.write w).Records shape f := by
  obtain ⟨p, v⟩ := w
  cases hset : s.grid.set p v with
  | error e =>
    rw [write_of_error hset]
    exact hs
  | ok g =>
    rw [write_of_ok hset]
    obtain ⟨k, hk, rfl⟩ := Grid.set_eq_ok_iff.mp hset
    refine ⟨hs.shape_eq, Grid.setIndex_wellFormed hs.wellFormed k v, fun q hq => ?_⟩
    by_cases hqp : q = p
    · subst hqp
      rw [Grid.get_setIndex_self (hs.shape_eq ▸ hd) hs.wellFormed hk, List.lookup_cons_self,
        Option.getD_some]
    · have hother : s.grid.shape.linearIndex? q ≠ some k := fun hqk =>
        hqp (Domain.linearIndex?_inj (hs.shape_eq ▸ hd) hqk hk)
      have hlookup : ((p, v) :: s.taken).lookup q = s.taken.lookup q := by
        rw [List.lookup_cons, beq_eq_false_iff_ne.mpr hqp]
      rw [Grid.get_setIndex_of_ne hother, hs.get_eq q hq, hlookup]

theorem Records.foldl_write (hs : s.Records shape f) (hd : shape.WellFormed)
    (ws : List (Point × Cell)) : (ws.foldl WriteLog.write s).Records shape f := by
  induction ws generalizing s with
  | nil => exact hs
  | cons w ws ih => exact ih (hs.write hd w)

theorem Records.exists_get_iff (hs : s.Records shape f) :
    (∃ v, s.grid.get p = .ok v) ↔ shape.contains p := by
  constructor
  · rintro ⟨v, hv⟩
    by_contra hp
    rw [Grid.get_of_not_contains (hs.shape_eq ▸ hp)] at hv
    cases hv
  · exact fun hp => ⟨_, hs.get_eq p hp⟩

theorem Records.exists_set_iff (hs : s.Records shape f) :
    (∃ g, s.grid.set p v = .ok g) ↔ shape.contains p := by
  simp only [Grid.set_eq_ok_iff, exists_comm (α := Grid), exists_and_left, exists_eq', and_true,
    hs.shape_eq, Domain.exists_linearIndex?_iff]

theorem Records.set_outside (hs : s.Records shape f) (hp : ¬shape.contains p) (v : Cell) :
    s.grid.set p v = .error (.outOfBounds p (.box shape)) :=
  Grid.set_eq_error_iff.mpr ⟨hs.shape_eq ▸ hp, by rw [Grid.outside, hs.shape_eq]⟩

/-- The writes that are taken are those at points of the shape. -/
theorem Records.taken_foldl (hs : s.Records shape f) (hd : shape.WellFormed)
    (ws : List (Point × Cell)) : (ws.foldl WriteLog.write s).taken =
      (ws.filter fun w => shape.contains w.1).reverse ++ s.taken := by
  induction ws generalizing s with
  | nil => rfl
  | cons w ws ih =>
    rw [List.foldl_cons, ih (hs.write hd w), List.filter_cons]
    by_cases hp : shape.contains w.1
    · obtain ⟨g, hg⟩ := hs.exists_set_iff.mpr hp
      rw [write_of_ok hg, if_pos hp, List.reverse_cons, List.append_assoc, List.singleton_append]
    · rw [write_of_error (hs.set_outside hp w.2), if_neg hp]

/-- The grid of zeros is a grid of the values of a function like any other. -/
theorem zeros_eq_ofFn (hd : shape.WellFormed) : Grid.zeros shape = .ofFn shape fun _ => 0 := by
  rw [Grid.zeros, Grid.ofFn, List.map_const', Domain.length_points hd, List.toArray_replicate]

/-- A grid is a map from the points of its shape to their contents. However it was constructed and
whatever was written to it, its shape and the number of its cells are those it was constructed with,
and every position of a point is that of a cell. The points that can be read, and those that can be
written, are the points of the shape, so the writes that it has taken are those at such points. What is
read is the value of the latest of these at the point, or the value that the cell was constructed with
if there is none. A write at any other point fails as out of bounds and changes nothing. -/
theorem writes_exact {lower upper : Point} (h : Domain.ofBounds lower upper = .ok shape) :
    Grid.zeros shape = .ofFn shape (fun _ => 0) ∧
    ∀ (f : Point → Cell) (ws : List (Point × Cell)) (s : WriteLog),
      ws.foldl write (start (.ofFn shape f)) = s →
        s.taken = (ws.filter fun w => shape.contains w.1).reverse ∧
        s.grid.shape = shape ∧ s.grid.cells.size = shape.size ∧
        (∀ p k, shape.linearIndex? p = some k → k < s.grid.cells.size) ∧
        (∀ p, (∃ v, s.grid.get p = .ok v) ↔ shape.contains p) ∧
        (∀ p, shape.contains p → s.grid.get p = .ok ((s.taken.lookup p).getD (f p))) ∧
        (∀ p v, (∃ g, s.grid.set p v = .ok g) ↔ shape.contains p) ∧
        ∀ p v, ¬shape.contains p →
          s.grid.set p v = .error (.outOfBounds p (.box shape)) ∧ s.write (p, v) = s := by
  have hd := Domain.ofBounds_wellFormed h
  refine ⟨zeros_eq_ofFn hd, ?_⟩
  rintro f ws s rfl
  have hs := (records_start hd f).foldl_write hd ws
  have hsize : (ws.foldl write (start (.ofFn shape f))).grid.cells.size = shape.size :=
    hs.wellFormed.trans (congrArg Domain.size hs.shape_eq)
  refine ⟨?_, hs.shape_eq, hsize, fun p k hk => ?_, fun p => hs.exists_get_iff, hs.get_eq,
    fun p v => hs.exists_set_iff, fun p v hp => ?_⟩
  · rw [(records_start hd f).taken_foldl hd, start, List.append_nil]
  · rw [hsize]
    exact Grid.index_lt (g := ⟨shape, #[]⟩) hd hk
  · exact ⟨hs.set_outside hp v, write_of_error (hs.set_outside hp v)⟩

/-- Two writes at one point of a square with a write outside in between: the second one counts, and a
point that was not written has kept its value. -/
theorem writes_exact_square :
    ∃ s, [([0, 1], 7), ([2, 0], 8), ([0, 1], 9)].foldl write
        (start (.ofFn ⟨[0, 0], [2, 2]⟩ fun p => Int64.ofInt (p.getD 0 0))) = s ∧
      s.grid.get [0, 1] = .ok 9 ∧ s.grid.get [1, 0] = .ok 1 ∧
      s.grid.set [2, 0] 3 = .error (.outOfBounds [2, 0] (.box ⟨[0, 0], [2, 2]⟩)) ∧
      Grid.zeros ⟨[0, 0], [2, 2]⟩ = .ofFn ⟨[0, 0], [2, 2]⟩ fun _ => 0 := by
  obtain ⟨hzeros, hwrites⟩ :=
    writes_exact (rfl : Domain.ofBounds [0, 0] [2, 2] = .ok ⟨[0, 0], [2, 2]⟩)
  obtain ⟨-, -, -, -, -, hget, -, hset⟩ := hwrites (fun p => Int64.ofInt (p.getD 0 0))
    [([0, 1], 7), ([2, 0], 8), ([0, 1], 9)] _ rfl
  refine ⟨_, rfl, (hget [0, 1] (by decide)).trans ?_, (hget [1, 0] (by decide)).trans ?_,
    (hset [2, 0] 3 (by decide)).1, hzeros⟩
  · decide +kernel
  · decide +kernel

end WriteLog

end AffineLoops
