import AffineLoops.Proofs.Dependence.Pattern
import AffineLoops.Proofs.Lattice.System
/-!
# The pattern of a statement

A statement that writes `A * p + w` and reads `A * p + r` touches the same cell at two iterations
exactly if their distance `δ` solves `A * δ = r - w`. Every offset of the extracted pattern is such a
distance, turned back. One distance is looked for per read, so the pattern has all of them if there
is at most one, that is, if no two iterations write the same cell.

If several iterations write one cell, a read of the cell that is written has the distance zero and
many others. The zero is what is found for it, and such a read adds nothing to the pattern although
it sees what earlier iterations have written.

## Main definitions

- `UniformAccesses` — the accesses of a statement with one linear part
- `AffineAccess.cell?`, `AffineAccess.Aliases` — the cells that accesses touch
- `AffineAccess.IsDistance`, `AffineAccess.aliases_iff` — two accesses to one cell, by the distance
  of the iterations
- `DependencePattern.ofAccesses_exact` — the offsets of the pattern
- `hasLoopCarriedDependence_iff` — when the pattern is not empty
-/

namespace AffineLoops

open Matrix DenseMatrix IntMatrix

variable {rounds : ℕ} {write read : AffineAccess} {reads : List AffineAccess} {f : DiagonalForm}
  {distance : Point}

theorem Point.toVec_eq_zero_iff {n : ℕ} {p : Point} (hp : p.length = n) :
    p.toVec n = 0 ↔ p.lexSign = 0 := by
  rw [Point.lexSign_eq_zero_iff, hp, ← Point.toVec_inj hp List.length_replicate,
    Point.toVec_replicate_zero]

theorem Point.sub_self (p : Point) : p.sub p = List.replicate p.length 0 := by
  simp [Point.sub, List.zipWith_self]

/-- Only the origin is mapped to the origin. -/
def IntMatrix.TrivialKernel (a : IntMatrix) : Prop :=
  ∀ x, a.mulVec? x = some (List.replicate a.rows 0) → x = List.replicate a.cols 0

theorem IntMatrix.TrivialKernel.eq {a : IntMatrix} (h : a.TrivialKernel) {x y b : Point}
    (hb : b.length = a.rows) (hx : a.mulVec? x = some b) (hy : a.mulVec? y = some b) : x = y := by
  obtain ⟨hxlen, hxb⟩ := (mulVec?_eq_some_iff rfl rfl hb).mp hx
  obtain ⟨hylen, hyb⟩ := (mulVec?_eq_some_iff rfl rfl hb).mp hy
  have hdiff := h (x.sub y) ((mulVec?_eq_some_iff rfl rfl List.length_replicate).mpr
    ⟨by rw [Point.length_sub, hxlen, hylen, Nat.min_self], by
      rw [Point.toVec_sub hxlen hylen, Matrix.mulVec_sub, hxb, hyb, sub_self,
        Point.toVec_replicate_zero]⟩)
  rw [← Point.toVec_inj hxlen hylen, ← sub_eq_zero, ← Point.toVec_sub hxlen hylen, hdiff,
    Point.toVec_replicate_zero]

/-- All accesses of the statement have the linear part of the write, and an offset per row of it. -/
structure UniformAccesses (write : AffineAccess) (reads : List AffineAccess) : Prop where
  written : write.offset.length = write.matrix.rows
  matrix : ∀ read ∈ reads, read.matrix = write.matrix
  offset : ∀ read ∈ reads, read.offset.length = write.matrix.rows

theorem UniformAccesses.length_sub (h : UniformAccesses write reads) (hread : read ∈ reads) :
    (read.offset.sub write.offset).length = write.matrix.rows := by
  rw [Point.length_sub, h.offset read hread, h.written, Nat.min_self]

namespace AffineAccess

/-- The cell that is touched at an iteration with a coordinate per column of the matrix. -/
def cell? (a : AffineAccess) (p : Point) : Option Point :=
  (a.matrix.mulVec? p).map (·.shift a.offset)

/-- At two different iterations the one access touches the cell that the other one touches. -/
def Aliases (write read : AffineAccess) : Prop :=
  ∃ p q, p ≠ q ∧ ∃ c, write.cell? p = some c ∧ read.cell? q = some c

/-- The solutions of the system whose right-hand side is the difference of the offsets: how far the
iteration that writes a cell is from one that reads it. -/
def IsDistance (write read : AffineAccess) (distance : Point) : Prop :=
  write.matrix.mulVec? distance = some (read.offset.sub write.offset)

instance : Decidable (write.IsDistance read distance) :=
  inferInstanceAs (Decidable (_ = _))

theorem cell?_eq_some_iff {a : AffineAccess} {h w : ℕ} (hr : a.matrix.rows = h)
    (hc : a.matrix.cols = w) (ho : a.offset.length = h) {p c : Point} :
    a.cell? p = some c ↔ p.length = w ∧
      List.ofFn (a.matrix.toMatrix h w *ᵥ p.toVec w + a.offset.toVec h) = c := by
  by_cases hp : p.length = w
  · rw [cell?, mulVec?_eq_some hr hc hp, Option.map_some, Option.some_inj, Point.ofFn_add,
      Point.ofFn_toVec ho, and_iff_right hp]
  · have hne : ¬a.matrix.cols = p.length := by omega
    rw [cell?, mulVec?, if_neg hne]
    exact iff_of_false (Option.some_ne_none c).symm fun hsome => hp hsome.1

theorem isDistance_iff {h w : ℕ} (hr : write.matrix.rows = h) (hc : write.matrix.cols = w)
    (hw : write.offset.length = h) (ho : read.offset.length = h) {distance : Point} :
    write.IsDistance read distance ↔ distance.length = w ∧
      write.matrix.toMatrix h w *ᵥ distance.toVec w = read.offset.toVec h - write.offset.toVec h := by
  rw [IsDistance, mulVec?_eq_some_iff hr hc (by rw [Point.length_sub, ho, hw, Nat.min_self]),
    Point.toVec_sub ho hw]

/-- The way back has the opposite distance. -/
theorem IsDistance.neg (hw : write.offset.length = write.matrix.rows)
    (hmatrix : read.matrix = write.matrix) (ho : read.offset.length = write.matrix.rows)
    {distance : Point} (h : write.IsDistance read distance) : read.IsDistance write distance.neg := by
  obtain ⟨hlen, hsolves⟩ := (isDistance_iff rfl rfl hw ho).mp h
  refine (isDistance_iff (congrArg rows hmatrix) (congrArg cols hmatrix) ho hw).mpr
    ⟨by rw [Point.neg, List.length_map, hlen], ?_⟩
  rw [hmatrix, Point.toVec_neg, Matrix.mulVec_neg, hsolves, neg_sub]

/-- Write and read touch one cell at different iterations exactly if they have a distance other than
zero. -/
theorem aliases_iff (hw : write.offset.length = write.matrix.rows)
    (hmatrix : read.matrix = write.matrix) (ho : read.offset.length = write.matrix.rows) :
    write.Aliases read ↔ ∃ distance, write.IsDistance read distance ∧ distance.lexSign ≠ 0 := by
  simp only [isDistance_iff rfl rfl hw ho]
  have hwrite := fun p c => cell?_eq_some_iff (p := p) (c := c) rfl rfl hw
  have hread := fun q c => cell?_eq_some_iff (a := read) (p := q) (c := c)
    (congrArg rows hmatrix) (congrArg cols hmatrix) ho
  rw [hmatrix] at hread
  constructor
  · rintro ⟨p, q, hne, c, hp, hq⟩
    obtain ⟨hplen, hpc⟩ := (hwrite p c).mp hp
    obtain ⟨hqlen, hqc⟩ := (hread q c).mp hq
    have hcell := List.ofFn_inj.mp (hpc.trans hqc.symm)
    have hlen : (p.sub q).length = write.matrix.cols := by
      rw [Point.length_sub, hplen, hqlen, Nat.min_self]
    refine ⟨p.sub q, ⟨hlen, ?_⟩, fun hzero => hne ?_⟩
    · rw [Point.toVec_sub hplen hqlen, Matrix.mulVec_sub]
      exact sub_eq_sub_iff_add_eq_add.mpr (hcell.trans (add_comm (Matrix.mulVec _ _) _))
    · rw [← Point.toVec_eq_zero_iff hlen, Point.toVec_sub hplen hqlen, sub_eq_zero] at hzero
      exact (Point.toVec_inj hplen hqlen).mp hzero
  · rintro ⟨distance, ⟨hlen, hsolves⟩, hne⟩
    -- the read at the origin and the write at the distance from it
    refine ⟨distance, List.replicate write.matrix.cols 0, ?_, _,
      (hwrite _ _).mpr ⟨hlen, rfl⟩, (hread _ _).mpr ⟨List.length_replicate, ?_⟩⟩
    · intro heq
      refine hne ((Point.toVec_eq_zero_iff hlen).mp ?_)
      rw [heq, Point.toVec_replicate_zero]
    · rw [Point.toVec_replicate_zero, Matrix.mulVec_zero, zero_add, hsolves, sub_add_cancel]

end AffineAccess

namespace DependencePattern

/-! ### What is found for a read -/

/-- The systems for the distances are all decided once the linear part has a diagonal form. -/
theorem settled_of_form (hf : DiagonalForm.ofMatrix? rounds write.matrix = some f)
    (h : UniformAccesses write reads) (hread : read ∈ reads) : Settled rounds write read where
  matrix := h.matrix read hread
  length := (h.offset read hread).trans h.written.symm
  solved := ((solve_decides hf _).2 (h.length_sub hread)).1

theorem Carries.exists_isDistance (hf : DiagonalForm.ofMatrix? rounds write.matrix = some f)
    (h : UniformAccesses write reads) (hread : read ∈ reads) {d : Point}
    (hd : Carries rounds write read d) :
    ∃ distance, distance.length = write.matrix.cols ∧ write.IsDistance read distance ∧
      distance.TurnsBack d := by
  obtain ⟨distance, hfound, hback⟩ := hd
  obtain ⟨hlen, hsolves⟩ := ((solve_decides hf _).2 (h.length_sub hread)).2.1 distance hfound
  exact ⟨distance, hlen, hsolves, hback⟩

/-- Some distance is found for a read that has any. -/
theorem exists_solve_found (hf : DiagonalForm.ofMatrix? rounds write.matrix = some f)
    (h : UniformAccesses write reads) (hread : read ∈ reads) {distance : Point}
    (hdistance : write.IsDistance read distance) :
    ∃ distance', solve rounds write.matrix (read.offset.sub write.offset) =
      .ok (.found distance') ∧ write.IsDistance read distance' := by
  obtain ⟨⟨s, hs, hfinished⟩, hsound, hcomplete⟩ := (solve_decides hf _).2 (h.length_sub hread)
  cases s with
  | unfinished => exact absurd rfl hfinished
  | unsolvable => exact absurd ⟨distance, hdistance⟩ (hcomplete.mp hs)
  | found distance' => exact ⟨distance', hs, (hsound distance' hs).2⟩

/-- If a read has one distance only, that one is found. -/
theorem carries_of_trivialKernel (hf : DiagonalForm.ofMatrix? rounds write.matrix = some f)
    (h : UniformAccesses write reads) (hread : read ∈ reads) (hker : write.matrix.TrivialKernel)
    {distance d : Point} (hdistance : write.IsDistance read distance)
    (hback : distance.TurnsBack d) : Carries rounds write read d := by
  obtain ⟨distance', hfound, hdistance'⟩ := exists_solve_found hf h hread hdistance
  obtain rfl := hker.eq (h.length_sub hread) hdistance hdistance'
  exact ⟨distance, hfound, hback⟩

/-! ### The whole pattern -/

theorem exists_ofAccesses (h : ∀ read ∈ reads, Settled rounds write read) :
    ∃ p, ofAccesses rounds write reads = .ok p ∧ p.dim = write.matrix.cols ∧ p.offsets.Nodup ∧
      ∀ d, d ∈ p.offsets ↔ ∃ read ∈ reads, Carries rounds write read d := by
  obtain ⟨p, hp, hadded⟩ := exists_foldlM_addRead h (empty write.matrix.cols)
  refine ⟨p, hp, hadded.dim, hadded.nodup List.nodup_nil, fun d => ?_⟩
  rw [hadded.mem, empty, or_iff_right List.not_mem_nil]

theorem exists_dependencePattern (rule : UpdateRule) {n : ℕ} (h : ∀ o ∈ rule.reads, o.length = n) :
    ∃ p, rule.dependencePattern n = .ok p ∧ p.dim = n ∧ p.offsets.Nodup ∧
      ∀ d, d ∈ p.offsets ↔ ∃ o ∈ rule.reads, o.TurnsBack d := by
  have hsettled : ∀ read ∈ rule.reads.map AffineAccess.uniform,
      Settled 1 (.uniform (List.replicate n 0)) read :=
    List.forall_mem_map.mpr fun o ho => settled_uniform 0 (h o ho)
  obtain ⟨p, hp, hdim, hnodup, hmem⟩ := exists_ofAccesses hsettled
  refine ⟨p, hp, by simpa [AffineAccess.uniform] using hdim, hnodup, fun d => ?_⟩
  rw [hmem]
  constructor
  · rintro ⟨_, hread, hcarries⟩
    obtain ⟨o, ho, rfl⟩ := List.mem_map.mp hread
    exact ⟨o, ho, (carries_iff (solve_uniform 0 (h o ho))).mp hcarries⟩
  · rintro ⟨o, ho, hback⟩
    exact ⟨_, List.mem_map_of_mem ho, (carries_iff (solve_uniform 0 (h o ho))).mpr hback⟩

/-- On accesses whose linear part has a diagonal form the pattern is extracted. Each of its offsets
points backwards, occurs once, and is a distance of one of the reads or the opposite of one. If the
linear part has a trivial kernel, every distance other than zero is in the pattern, turned back. For
a rule these distances are the offsets that it reads. -/
theorem ofAccesses_exact (hf : DiagonalForm.ofMatrix? rounds write.matrix = some f)
    (h : UniformAccesses write reads) :
    (∃ p, ofAccesses rounds write reads = .ok p ∧ p.dim = write.matrix.cols ∧ p.offsets.Nodup ∧
      (∀ d ∈ p.offsets, d.length = write.matrix.cols ∧ d.lexSign < 0 ∧
        ∃ read ∈ reads, write.IsDistance read d ∨ read.IsDistance write d) ∧
      (write.matrix.TrivialKernel → ∀ d, d ∈ p.offsets ↔
        ∃ read ∈ reads, ∃ distance, write.IsDistance read distance ∧ distance.TurnsBack d)) ∧
    ∀ (rule : UpdateRule) (n : ℕ), (∀ o ∈ rule.reads, o.length = n) →
      ∃ p, rule.dependencePattern n = .ok p ∧ p.dim = n ∧ p.offsets.Nodup ∧
        ∀ d, d ∈ p.offsets ↔ ∃ o ∈ rule.reads, o.TurnsBack d := by
  refine ⟨?_, fun rule n hlen => exists_dependencePattern rule hlen⟩
  obtain ⟨p, hp, hdim, hnodup, hmem⟩ := exists_ofAccesses fun read => settled_of_form hf h
  refine ⟨p, hp, hdim, hnodup, fun d hd => ?_, fun hker d => ?_⟩
  · obtain ⟨read, hread, hcarries⟩ := (hmem d).mp hd
    obtain ⟨distance, hlen, hdistance, hsign, hd⟩ := hcarries.exists_isDistance hf h hread
    rcases hd with rfl | rfl
    · exact ⟨hlen, hsign, read, hread, Or.inl hdistance⟩
    · exact ⟨by rw [Point.neg, List.length_map, hlen], hsign, read, hread,
        Or.inr (hdistance.neg h.written (h.matrix read hread) (h.offset read hread))⟩
  · rw [hmem]
    refine exists_congr fun read => and_congr_right fun hread => ⟨fun hcarries => ?_, ?_⟩
    · obtain ⟨distance, -, hfound⟩ := hcarries.exists_isDistance hf h hread
      exact ⟨distance, hfound⟩
    · rintro ⟨distance, hdistance, hback⟩
      exact carries_of_trivialKernel hf h hread hker hdistance hback

/-- An access to the sum and the difference of two coordinates. -/
def diagonals (offset : Point) : AffineAccess :=
  ⟨⟨2, 2, #v[#v[1, 1], #v[1, -1]]⟩, offset⟩

/-- Reads of the cells of a later and of an earlier iteration, of one that is never written, and of
the one that the iteration itself writes. -/
theorem ofAccesses_exact_diagonals :
    (∃ p, ofAccesses 20 (diagonals [0, 0]) ([[-1, -1], [2, 0], [1, 0], [0, 0]].map diagonals) =
      .ok p ∧ [-1, 0] ∈ p.offsets ∧ [-1, -1] ∈ p.offsets ∧ [0, -1] ∉ p.offsets) ∧
    ∃ p, (UpdateRule.stencil "sum" [[0, -1], [1, -1], [0, 0]]).dependencePattern 2 = .ok p ∧
      [0, -1] ∈ p.offsets ∧ [-1, 1] ∈ p.offsets ∧ [0, 0] ∉ p.offsets := by
  obtain ⟨f, hf⟩ := Option.isSome_iff_exists.mp (by decide +kernel :
    (DiagonalForm.ofMatrix? 20 (diagonals [0, 0]).matrix).isSome)
  have hker : (diagonals [0, 0]).matrix.TrivialKernel := by
    intro x hx
    obtain ⟨hlen, -⟩ := (mulVec?_eq_some_iff (h := 2) (w := 2) rfl rfl rfl).mp hx
    obtain ⟨a, b, rfl⟩ := List.length_eq_two.mp hlen
    simp [diagonals, mulVec?, toRows, Point.dot] at hx
    obtain ⟨rfl, rfl⟩ : a = 0 ∧ b = 0 := by omega
    rfl
  have huniform : UniformAccesses (diagonals [0, 0])
      ([[-1, -1], [2, 0], [1, 0], [0, 0]].map diagonals) := ⟨rfl, by decide, by decide⟩
  obtain ⟨⟨p, hp, -, -, hsound, hexact⟩, hrule⟩ := ofAccesses_exact hf huniform
  have hcell : [0, -1] ∉ p.offsets := fun hmem => absurd (hsound _ hmem).2.2 (by decide)
  obtain ⟨q, hq, -, -, hmem⟩ := hrule (.stencil "sum" [[0, -1], [1, -1], [0, 0]]) 2 (by decide)
  exact ⟨⟨p, hp,
    (hexact hker _).mpr ⟨diagonals [-1, -1], by decide, [-1, 0], by decide, by decide⟩,
    (hexact hker _).mpr ⟨diagonals [2, 0], by decide, [1, 1], by decide, by decide⟩, hcell⟩,
    q, hq, (hmem _).mpr (by decide), (hmem _).mpr (by decide), mt (hmem _).mp (by decide)⟩

/-! ### Whether there is an offset -/

/-- A read adds an offset to the pattern if it touches the cell of another iteration, and is not a
read of the cell that its own iteration writes. -/
theorem exists_carries_iff (hf : DiagonalForm.ofMatrix? rounds write.matrix = some f)
    (h : UniformAccesses write reads) (hread : read ∈ reads) :
    (∃ d, Carries rounds write read d) ↔ read.offset ≠ write.offset ∧ write.Aliases read := by
  have hoffset := h.offset read hread
  rw [AffineAccess.aliases_iff h.written (h.matrix read hread) hoffset]
  constructor
  · rintro ⟨d, hcarries⟩
    obtain ⟨distance, hlen, hdistance, hback⟩ := hcarries.exists_isDistance hf h hread
    refine ⟨fun heq => ?_, distance, hdistance, Point.exists_turnsBack_iff.mp ⟨d, hback⟩⟩
    -- if the offsets agree then zero is the distance that is found, and zero points nowhere
    have hzero : solve rounds write.matrix (read.offset.sub write.offset) =
        .ok (.found (List.replicate write.matrix.cols 0)) := by
      rw [heq, Point.sub_self, h.written, solve_zero hf]
    have hsign := Point.exists_turnsBack_iff.mp ⟨d, (carries_iff hzero).mp hcarries⟩
    exact hsign (by rw [Point.lexSign_eq_zero_iff, List.length_replicate])
  · rintro ⟨hne, distance, hdistance, -⟩
    obtain ⟨found, hfound, hdistance⟩ := exists_solve_found hf h hread hdistance
    obtain ⟨hlen, hsolves⟩ := (AffineAccess.isDistance_iff rfl rfl h.written hoffset).mp hdistance
    have hsign : found.lexSign ≠ 0 := by
      intro hzero
      rw [(Point.toVec_eq_zero_iff hlen).mpr hzero, Matrix.mulVec_zero, eq_comm, sub_eq_zero,
        Point.toVec_inj hoffset h.written] at hsolves
      exact hne hsolves
    obtain ⟨d, hback⟩ := Point.exists_turnsBack_iff.mpr hsign
    exact ⟨d, found, hfound, hback⟩

end DependencePattern

/-- The answer is positive exactly if some read touches a cell that another iteration writes, and is
not a read of the cell that its own iteration writes. -/
theorem hasLoopCarriedDependence_iff
    (hf : DiagonalForm.ofMatrix? rounds write.matrix = some f) (h : UniformAccesses write reads) :
    ∃ carried, hasLoopCarriedDependence rounds write reads = .ok carried ∧
      (carried = true ↔ ∃ read ∈ reads, read.offset ≠ write.offset ∧ write.Aliases read) := by
  obtain ⟨p, hp, -, -, hmem⟩ :=
    DependencePattern.exists_ofAccesses fun read => DependencePattern.settled_of_form hf h
  refine ⟨!p.isEmpty, by rw [hasLoopCarriedDependence, hp]; rfl, ?_⟩
  rw [DependencePattern.isEmpty, Bool.not_eq_true', List.isEmpty_eq_false_iff_exists_mem]
  constructor
  · rintro ⟨d, hd⟩
    obtain ⟨read, hread, hcarries⟩ := (hmem d).mp hd
    exact ⟨read, hread, (DependencePattern.exists_carries_iff hf h hread).mp ⟨d, hcarries⟩⟩
  · rintro ⟨read, hread, haliases⟩
    obtain ⟨d, hcarries⟩ := (DependencePattern.exists_carries_iff hf h hread).mpr haliases
    exact ⟨d, (hmem d).mpr ⟨read, hread, hcarries⟩⟩

/-- Every row of an array is summed up in one cell, and read one row further down. -/
theorem hasLoopCarriedDependence_rows :
    hasLoopCarriedDependence 20 ⟨⟨1, 2, #v[#v[1, 0]]⟩, [0]⟩ [⟨⟨1, 2, #v[#v[1, 0]]⟩, [1]⟩] =
      .ok true := by
  obtain ⟨f, hf⟩ := Option.isSome_iff_exists.mp (by decide +kernel :
    (DiagonalForm.ofMatrix? 20 ⟨1, 2, #v[#v[1, 0]]⟩).isSome)
  have huniform : UniformAccesses ⟨⟨1, 2, #v[#v[1, 0]]⟩, [0]⟩ [⟨⟨1, 2, #v[#v[1, 0]]⟩, [1]⟩] :=
    ⟨rfl, by decide, by decide⟩
  obtain ⟨carried, hcarried, hiff⟩ := hasLoopCarriedDependence_iff hf huniform
  rw [hcarried, hiff.mpr ⟨_, List.mem_singleton_self _, by decide, [1, 0], [0, 0], by decide, [1],
    by decide, by decide⟩]

/-- Every row of an array is summed up in one cell, which is read and written by all iterations of
the row: the answer is negative although they see what earlier ones have written. -/
theorem not_hasLoopCarriedDependence_sum :
    (DiagonalForm.ofMatrix? 20 ⟨1, 2, #v[#v[1, 0]]⟩).isSome ∧
      UniformAccesses ⟨⟨1, 2, #v[#v[1, 0]]⟩, [0]⟩ [⟨⟨1, 2, #v[#v[1, 0]]⟩, [0]⟩] ∧
      AffineAccess.Aliases ⟨⟨1, 2, #v[#v[1, 0]]⟩, [0]⟩ ⟨⟨1, 2, #v[#v[1, 0]]⟩, [0]⟩ ∧
      hasLoopCarriedDependence 20 ⟨⟨1, 2, #v[#v[1, 0]]⟩, [0]⟩ [⟨⟨1, 2, #v[#v[1, 0]]⟩, [0]⟩] =
        .ok false :=
  ⟨by decide +kernel, ⟨rfl, by decide, by decide⟩,
    ⟨[0, 0], [0, 1], by decide, [0], by decide, by decide⟩, by decide +kernel⟩

end AffineLoops
