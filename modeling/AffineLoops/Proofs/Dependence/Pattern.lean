import AffineLoops.Proofs.Except
import AffineLoops.Proofs.Lattice.Diagonal
import AffineLoops.Proofs.Point
import AffineLoops.Rule.Update
/-!
# Dependences of an update rule

A pattern is extracted read by read: each read adds the distance that is found for it, turned back,
or nothing. Reads and write of a rule all multiply the iteration with the identity, so the distance
of a read is its offset. Every read whose offset is not zero therefore contributes its offset, or the
opposite one, to the pattern of the rule.

## Main definitions

- `DependencePattern.ofOffsets_eq_ok` — the offsets of a pattern that is given by them
- `DependencePattern.mem_violations` — the offsets that a transform turns around
- `DependencePattern.Carries`, `DependencePattern.exists_foldlM_addRead` — what the reads add
- `DependencePattern.Covers` — a read offset is accounted for
- `UpdateRule.covers_of_dependencePattern` — the pattern of a rule accounts for all its reads
-/

namespace AffineLoops

open IntMatrix

namespace Point

theorem sub_replicate_zero (p : Point) : p.sub (List.replicate p.length 0) = p := by
  apply List.ext_getElem
  · simp [sub]
  · intro i h₁ h₂
    simp [sub]

end Point

namespace DependencePattern

variable {p p' : DependencePattern} {n : ℕ} {o : Point}

/-- A read at the offset `o` reads the cell of the iteration itself, or of an earlier one that it
depends on, or of a later one that depends on it. -/
def Covers (p : DependencePattern) (o : Point) : Prop :=
  o.lexSign = 0 ∨ (o.lexSign < 0 ∧ o ∈ p.offsets) ∨ (0 < o.lexSign ∧ o.neg ∈ p.offsets)

theorem Covers.mono (h : p.Covers o) (hsub : p.offsets ⊆ p'.offsets) : p'.Covers o := by
  rcases h with hzero | ⟨hneg, hmem⟩ | ⟨hpos, hmem⟩
  · exact Or.inl hzero
  · exact Or.inr (Or.inl ⟨hneg, hsub hmem⟩)
  · exact Or.inr (Or.inr ⟨hpos, hsub hmem⟩)

theorem mem_insert {o' : Point} : o' ∈ (p.insert o).offsets ↔ o' ∈ p.offsets ∨ o' = o := by
  unfold insert
  split
  · next hmem =>
    constructor
    · exact Or.inl
    · rintro (h | rfl)
      · exact h
      · exact hmem
  · exact List.mem_append.trans (or_congr_right List.mem_singleton)

@[simp] theorem dim_insert (p : DependencePattern) (o : Point) : (p.insert o).dim = p.dim := by
  unfold insert
  split <;> rfl

theorem insertChecked_eq_ok :
    p.insertChecked o = .ok p' ↔ (o.length = p.dim ∧ o.lexSign < 0) ∧ p.insert o = p' := by
  rw [insertChecked]
  split
  · next h => simp [h]
  · next h => simp [h]

/-- Checked construction keeps the given offsets, all of which point backwards. -/
theorem foldlM_insertChecked {offsets : List Point}
    (h : offsets.foldlM insertChecked p = .ok p') :
    p'.dim = p.dim ∧ (∀ o, o ∈ p'.offsets ↔ o ∈ p.offsets ∨ o ∈ offsets) ∧
      ∀ o ∈ offsets, o.length = p.dim ∧ o.lexSign < 0 := by
  induction offsets generalizing p with
  | nil =>
    cases h
    simp
  | cons a offsets ih =>
    obtain ⟨q, hq, hrest⟩ := Except.bind_eq_ok.mp h
    obtain ⟨hvalid, rfl⟩ := insertChecked_eq_ok.mp hq
    obtain ⟨hdim, hmem, hall⟩ := ih hrest
    rw [dim_insert] at hdim hall
    refine ⟨hdim, fun o => ?_, List.forall_mem_cons.mpr ⟨hvalid, hall⟩⟩
    rw [hmem, mem_insert, List.mem_cons, or_assoc]

theorem ofOffsets_eq_ok {offsets : List Point} (h : ofOffsets n offsets = .ok p) :
    p.dim = n ∧ (∀ o, o ∈ p.offsets ↔ o ∈ offsets) ∧
      ∀ o ∈ p.offsets, o.length = n ∧ o.lexSign < 0 := by
  obtain ⟨hdim, hmem, hall⟩ := foldlM_insertChecked h
  have hsame : ∀ o, o ∈ p.offsets ↔ o ∈ offsets := fun o => by simp [hmem, empty]
  exact ⟨hdim, hsame, fun o ho => hall o ((hsame o).mp ho)⟩

/-- The offsets that are turned around by a transform of the same axes. -/
theorem mem_violations {t : Transform} (hdim : t.dim = p.dim) :
    o ∈ p.violations t ↔ o ∈ p.offsets ∧ 0 ≤ (t.apply o).lexSign := by
  rw [violations, if_neg (not_not_intro hdim), List.mem_filter, decide_eq_true_eq]

theorem isRespectedBy_iff {t : Transform} : p.isRespectedBy t ↔ ∀ o, o ∉ p.violations t := by
  rw [isRespectedBy, List.isEmpty_iff, List.eq_nil_iff_forall_not_mem]

/-! ### What a read adds -/

/-- The pattern `p'` is `p` with the offsets in `S` added. -/
structure Extends (p p' : DependencePattern) (S : Point → Prop) : Prop where
  dim : p'.dim = p.dim
  nodup : p.offsets.Nodup → p'.offsets.Nodup
  mem : ∀ o, o ∈ p'.offsets ↔ o ∈ p.offsets ∨ S o

theorem extends_insert (p : DependencePattern) (o : Point) : p.Extends (p.insert o) (· = o) where
  dim := dim_insert p o
  nodup h := by
    unfold insert
    split
    · exact h
    · next hmem => exact h.append (List.nodup_singleton o) (by simpa using hmem)
  mem _ := mem_insert

/-- The linear part of the read is that of the write, and the system for the distance between their
iterations is decided within the rounds. -/
structure Settled (rounds : ℕ) (write read : AffineAccess) : Prop where
  matrix : read.matrix = write.matrix
  length : read.offset.length = write.offset.length
  solved : ∃ s, solve rounds write.matrix (read.offset.sub write.offset) = .ok s ∧ s ≠ .unfinished

/-- The offset is the distance that is found for the read, turned back. -/
def Carries (rounds : ℕ) (write read : AffineAccess) (o : Point) : Prop :=
  ∃ distance, solve rounds write.matrix (read.offset.sub write.offset) = .ok (.found distance) ∧
    distance.TurnsBack o

theorem carries_iff {rounds : ℕ} {write read : AffineAccess} {distance : Point}
    (h : solve rounds write.matrix (read.offset.sub write.offset) = .ok (.found distance)) :
    Carries rounds write read o ↔ distance.TurnsBack o := by
  constructor
  · rintro ⟨distance', h', hback⟩
    cases h.symm.trans h'
    exact hback
  · exact fun hback => ⟨distance, h, hback⟩

/-- A read whose cell is written in one other iteration adds the offset of that iteration. -/
theorem addRead_found {rounds : ℕ} {write read : AffineAccess}
    (hmatrix : read.matrix = write.matrix) (hlen : read.offset.length = write.offset.length)
    (hsolve : solve rounds write.matrix (read.offset.sub write.offset) = .ok (.found o)) :
    addRead rounds write p read =
      (orient? o).elim (Except.ok p) fun found => .ok (p.insert found.1) := by
  rw [addRead, if_neg (not_not_intro hmatrix), if_neg (not_not_intro hlen), hsolve]
  change Except.bind (.ok (Solution.found o)) _ = _
  dsimp only [Except.bind]
  cases orient? o <;> rfl

theorem addRead_unsolvable {rounds : ℕ} {write read : AffineAccess}
    (hmatrix : read.matrix = write.matrix) (hlen : read.offset.length = write.offset.length)
    (hsolve : solve rounds write.matrix (read.offset.sub write.offset) = .ok .unsolvable) :
    addRead rounds write p read = .ok p := by
  rw [addRead, if_neg (not_not_intro hmatrix), if_neg (not_not_intro hlen), hsolve]
  rfl

/-- One read adds the offsets that it carries. -/
theorem exists_addRead {rounds : ℕ} {write read : AffineAccess} (h : Settled rounds write read)
    (p : DependencePattern) :
    ∃ p', addRead rounds write p read = .ok p' ∧ p.Extends p' (Carries rounds write read) := by
  obtain ⟨s, hs, hfinished⟩ := h.solved
  cases s with
  | unfinished => exact absurd rfl hfinished
  | unsolvable =>
    refine ⟨p, addRead_unsolvable h.matrix h.length hs, rfl, id, fun o => ?_⟩
    refine (or_iff_left ?_).symm
    rintro ⟨distance, hfound, -⟩
    cases hs.symm.trans hfound
  | found distance =>
    rw [addRead_found h.matrix h.length hs]
    unfold orient?
    rcases lt_trichotomy distance.lexSign 0 with hneg | hzero | hpos
    · rw [if_neg hneg.ne, if_pos hneg]
      refine ⟨_, rfl, { extends_insert p distance with mem := fun o => ?_ }⟩
      rw [mem_insert, carries_iff hs, Point.turnsBack_of_neg hneg]
    · rw [if_pos hzero]
      refine ⟨p, rfl, rfl, id, fun o => (or_iff_left fun hcarries => ?_).symm⟩
      exact Point.not_turnsBack_of_zero hzero ((carries_iff hs).mp hcarries)
    · rw [if_neg hpos.ne', if_neg hpos.not_gt]
      refine ⟨_, rfl, { extends_insert p distance.neg with mem := fun o => ?_ }⟩
      rw [mem_insert, carries_iff hs, Point.turnsBack_of_pos hpos]

/-- All reads together add the offsets that any of them carries. -/
theorem exists_foldlM_addRead {rounds : ℕ} {write : AffineAccess} {reads : List AffineAccess}
    (h : ∀ read ∈ reads, Settled rounds write read) (p : DependencePattern) :
    ∃ p', reads.foldlM (addRead rounds write) p = .ok p' ∧
      p.Extends p' fun o => ∃ read ∈ reads, Carries rounds write read o := by
  induction reads generalizing p with
  | nil => exact ⟨p, rfl, rfl, id, by simp⟩
  | cons read reads ih =>
    obtain ⟨hread, hreads⟩ := List.forall_mem_cons.mp h
    obtain ⟨q, hq, hfirst⟩ := exists_addRead hread p
    obtain ⟨p', hp', hrest⟩ := ih hreads q
    refine ⟨p', ?_, hrest.dim.trans hfirst.dim, hrest.nodup ∘ hfirst.nodup, fun o => ?_⟩
    · rw [List.foldlM_cons, hq, Except.bind_ok, hp']
    · rw [hrest.mem, hfirst.mem, List.exists_mem_cons_iff, or_assoc]

/-! ### The reads of a rule -/

theorem solve_uniform (rounds : ℕ) (ho : o.length = n) :
    solve (rounds + 1) (AffineAccess.uniform (List.replicate n 0)).matrix
      ((AffineAccess.uniform o).offset.sub (AffineAccess.uniform (List.replicate n 0)).offset) =
        .ok (.found o) := by
  subst ho
  simp only [AffineAccess.uniform, List.length_replicate, Point.sub_replicate_zero, solve_identity]

theorem settled_uniform (rounds : ℕ) (ho : o.length = n) :
    Settled (rounds + 1) (.uniform (List.replicate n 0)) (.uniform o) where
  matrix := by simp [AffineAccess.uniform, ho]
  length := by simp [AffineAccess.uniform, ho]
  solved := ⟨_, solve_uniform rounds ho, nofun⟩

/-- What is accounted for, once a distance and its opposite are. -/
theorem covers_of_turnsBack (h : ∀ o', o.TurnsBack o' → o' ∈ p.offsets) : p.Covers o := by
  rcases lt_trichotomy o.lexSign 0 with hneg | hzero | hpos
  · exact Or.inr (Or.inl ⟨hneg, h o ((Point.turnsBack_of_neg hneg).mpr rfl)⟩)
  · exact Or.inl hzero
  · exact Or.inr (Or.inr ⟨hpos, h o.neg ((Point.turnsBack_of_pos hpos).mpr rfl)⟩)

/-- One read of a rule: it has an offset per axis, and is accounted for from then on. -/
theorem covers_of_addRead (rounds : ℕ)
    (h : addRead (rounds + 1) (.uniform (List.replicate n 0)) p (.uniform o) = .ok p') :
    o.length = n ∧ p'.Covers o ∧ p.offsets ⊆ p'.offsets := by
  by_cases hmatrix : (AffineAccess.uniform o).matrix =
      (AffineAccess.uniform (List.replicate n 0)).matrix
  · have hlen : o.length = n := by
      have hrows := congrArg DenseMatrix.rows hmatrix
      simpa [AffineAccess.uniform] using hrows
    obtain ⟨q, hq, hadded⟩ := exists_addRead (settled_uniform rounds hlen) p
    cases hq.symm.trans h
    refine ⟨hlen, covers_of_turnsBack fun o' ho' => ?_, fun o' ho' => ?_⟩
    · exact (hadded.mem o').mpr (Or.inr ((carries_iff (solve_uniform rounds hlen)).mpr ho'))
    · exact (hadded.mem o').mpr (Or.inl ho')
  · rw [addRead, if_pos hmatrix] at h
    cases h

/-- All the reads of a rule, one after the other. -/
theorem covers_of_foldlM (rounds : ℕ) {reads : List Point}
    (h : (reads.map AffineAccess.uniform).foldlM
      (addRead (rounds + 1) (.uniform (List.replicate n 0))) p = .ok p') :
    (∀ o ∈ reads, o.length = n ∧ p'.Covers o) ∧ p.offsets ⊆ p'.offsets := by
  induction reads generalizing p with
  | nil =>
    cases h
    exact ⟨fun o ho => absurd ho List.not_mem_nil, List.Subset.refl _⟩
  | cons o reads ih =>
    rw [List.map_cons, List.foldlM_cons] at h
    obtain ⟨q, hq, hrest⟩ := Except.bind_eq_ok.mp h
    obtain ⟨hlen, hcovers, hsub⟩ := covers_of_addRead rounds hq
    obtain ⟨hall, hsub'⟩ := ih hrest
    refine ⟨fun o' ho' => ?_, List.Subset.trans hsub hsub'⟩
    rcases List.mem_cons.mp ho' with rfl | ho'
    · exact ⟨hlen, hcovers.mono hsub'⟩
    · exact hall o' ho'

end DependencePattern

/-- The pattern of a rule accounts for every read, and the reads have an offset per axis. -/
theorem UpdateRule.covers_of_dependencePattern {rule : UpdateRule} {n : ℕ} {p : DependencePattern}
    (h : rule.dependencePattern n = .ok p) : ∀ o ∈ rule.reads, o.length = n ∧ p.Covers o :=
  (DependencePattern.covers_of_foldlM 0 h).1

end AffineLoops
