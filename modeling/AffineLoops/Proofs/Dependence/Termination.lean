import AffineLoops.Proofs.Dependence.Extraction
import AffineLoops.Proofs.Lattice.Termination
/-!
# Answers within some number of rounds

An integer system, and every question about the dependences of a statement, is answered within some
number of rounds exactly if its matrix is diagonalized. On a matrix that is not, no number of rounds is
enough.

## Main definitions

- `exists_solve_iff` — when a system is decided
- `DependencePattern.exists_ofAccesses_iff`, `exists_hasLoopCarriedDependence_iff` — when the questions
  about a statement are answered
- `DiagonalForm.ends_exact` — which matrices are diagonalized, and what depends on it
-/

namespace AffineLoops

open Matrix DenseMatrix IntMatrix DiagonalForm

variable {m : IntMatrix} {write : AffineAccess} {reads : List AffineAccess}

/-- A system is decided within some number of rounds exactly if its matrix is diagonalized. -/
theorem exists_solve_iff {b : Point} (hb : b.length = m.rows) :
    (∃ rounds s, solve rounds m b = .ok s ∧ s ≠ .unfinished) ↔ Ends m := by
  constructor
  · rintro ⟨rounds, s, hs, hfinished⟩
    cases hform : ofMatrix? rounds m with
    | none =>
      rw [solve, if_neg (by omega), hform] at hs
      cases hs
      exact absurd rfl hfinished
    | some f => exact ⟨rounds, f, hform⟩
  · rintro ⟨rounds, f, hf⟩
    obtain ⟨s, hs⟩ := ((solve_decides hf b).2 hb).1
    exact ⟨rounds, s, hs⟩

namespace DependencePattern

theorem addRead_unfinished {rounds : ℕ} {p : DependencePattern} {read : AffineAccess}
    (hmatrix : read.matrix = write.matrix) (hlen : read.offset.length = write.offset.length)
    (hsolve : solve rounds write.matrix (read.offset.sub write.offset) = .ok .unfinished) :
    addRead rounds write p read = .error (.fault .unfinished) := by
  rw [addRead, if_neg (not_not_intro hmatrix), if_neg (not_not_intro hlen), hsolve]
  rfl

/-- The pattern of a statement that reads anything is extracted within some number of rounds exactly
if the linear part is diagonalized. -/
theorem exists_ofAccesses_iff (h : UniformAccesses write reads) (hreads : reads ≠ []) :
    (∃ rounds p, ofAccesses rounds write reads = .ok p) ↔ Ends write.matrix := by
  constructor
  · rintro ⟨rounds, p, hp⟩
    obtain ⟨read, rest, rfl⟩ := List.exists_cons_of_ne_nil hreads
    have hread : read ∈ read :: rest := List.mem_cons_self
    rw [ofAccesses, List.foldlM_cons] at hp
    obtain ⟨q, hq, -⟩ := Except.bind_eq_ok.mp hp
    cases hform : ofMatrix? rounds write.matrix with
    | some f => exact ⟨rounds, f, hform⟩
    | none =>
      have hsolve : solve rounds write.matrix (read.offset.sub write.offset) = .ok .unfinished := by
        rw [solve, if_neg (not_not_intro (h.length_sub hread).symm), hform]
      rw [addRead_unfinished (h.matrix read hread)
        ((h.offset read hread).trans h.written.symm) hsolve] at hq
      cases hq
  · rintro ⟨rounds, f, hf⟩
    obtain ⟨p, hp, -⟩ := exists_ofAccesses fun _ => settled_of_form hf h
    exact ⟨rounds, p, hp⟩

end DependencePattern

theorem exists_hasLoopCarriedDependence_iff (h : UniformAccesses write reads) (hreads : reads ≠ []) :
    (∃ rounds carried, hasLoopCarriedDependence rounds write reads = .ok carried) ↔
      Ends write.matrix := by
  rw [← DependencePattern.exists_ofAccesses_iff h hreads]
  refine exists_congr fun rounds => ?_
  simp only [hasLoopCarriedDependence, Except.bind_eq_ok]
  constructor
  · rintro ⟨carried, p, hp, -⟩
    exact ⟨p, hp⟩
  · rintro ⟨p, hp⟩
    exact ⟨_, p, hp, rfl⟩

/-- Which matrices are diagonalized. At every position that is reached the rounds come to an end
exactly if only finitely many of them drag back a row that has been cleared. They never do on a matrix
with at most one row or column, on one with at most one entry in every row, and on one with a right
inverse. Systems are decided, and the dependences of a statement are found, within some number of
rounds exactly if their matrix is diagonalized; otherwise no number of rounds is enough. -/
theorem DiagonalForm.ends_exact (m : IntMatrix) :
    (Ends m ↔ ∀ k < min m.rows m.cols, ∀ f, Reaches m k f → f.FinitelyDrags k) ∧
    (m.rows ≤ 1 ∨ m.cols ≤ 1 ∨ SingleRows m ∨
      (∃ b : Matrix (Fin m.cols) (Fin m.rows) ℤ, m.toMatrix m.rows m.cols * b = 1) → Ends m) ∧
    (∀ b : Point, b.length = m.rows →
      ((∃ rounds s, solve rounds m b = .ok s ∧ s ≠ .unfinished) ↔ Ends m)) ∧
    ∀ write reads, write.matrix = m → UniformAccesses write reads → reads ≠ [] →
      ((∃ rounds p, DependencePattern.ofAccesses rounds write reads = .ok p) ↔ Ends m) ∧
      ((∃ rounds carried, hasLoopCarriedDependence rounds write reads = .ok carried) ↔ Ends m) := by
  refine ⟨ends_iff, ?_, fun b hb => exists_solve_iff hb, ?_⟩
  · rintro (hrows | hcols | hsingle | ⟨b, hb⟩)
    · exact ends_of_le_one (Or.inl hrows)
    · exact ends_of_le_one (Or.inr hcols)
    · exact ends_of_singleRows hsingle
    · exact ends_of_rightInverse hb
  · rintro write reads rfl h hreads
    exact ⟨DependencePattern.exists_ofAccesses_iff h hreads,
      exists_hasLoopCarriedDependence_iff h hreads⟩

/-- A unimodular matrix, a selection of array axes, and a statement that is asked about with it. -/
theorem DiagonalForm.ends_exact_shapes :
    (Ends ⟨2, 2, #v[#v[2, 1], #v[3, 2]]⟩ ∧
      ∃ rounds s, solve rounds ⟨2, 2, #v[#v[2, 1], #v[3, 2]]⟩ [1, 0] = .ok s ∧ s ≠ .unfinished) ∧
    ∃ rounds carried, hasLoopCarriedDependence rounds ⟨⟨2, 3, #v[#v[0, 0, 2], #v[1, 0, 0]]⟩, [0, 0]⟩
      [⟨⟨2, 3, #v[#v[0, 0, 2], #v[1, 0, 0]]⟩, [2, 0]⟩] = .ok carried := by
  constructor
  · obtain ⟨-, hclasses, hsolve, -⟩ := ends_exact ⟨2, 2, #v[#v[2, 1], #v[3, 2]]⟩
    have hends := hclasses (Or.inr (Or.inr (Or.inr ⟨!![2, -1; -3, 2], by decide⟩)))
    exact ⟨hends, (hsolve [1, 0] rfl).mpr hends⟩
  · obtain ⟨-, hclasses, -, hasks⟩ := ends_exact ⟨2, 3, #v[#v[0, 0, 2], #v[1, 0, 0]]⟩
    have hsingle : SingleRows ⟨2, 3, #v[#v[0, 0, 2], #v[1, 0, 0]]⟩ := by decide
    exact ((hasks _ _ rfl ⟨rfl, by decide, by decide⟩ (List.cons_ne_nil _ _)).2).mpr
      (hclasses (Or.inr (Or.inr (Or.inl hsingle))))

/-- Two rows on which every round drags the first one back. Neither a system with them nor a question
about a statement is ever answered. -/
theorem DiagonalForm.not_ends_halves :
    ¬Ends ⟨2, 2, #v[#v[4, 0], #v[2, 2]]⟩ ∧
    (∀ rounds, solve rounds ⟨2, 2, #v[#v[4, 0], #v[2, 2]]⟩ [2, 0] = .ok .unfinished) ∧
    ¬∃ rounds carried, hasLoopCarriedDependence rounds ⟨⟨2, 2, #v[#v[4, 0], #v[2, 2]]⟩, [0, 0]⟩
      [⟨⟨2, 2, #v[#v[4, 0], #v[2, 2]]⟩, [2, 0]⟩] = .ok carried := by
  have hnot : ¬Ends ⟨2, 2, #v[#v[4, 0], #v[2, 2]]⟩ :=
    not_ends_of_multiple (q := 2) (a := 2) (b := 2) (by decide) (by decide) (by decide)
  refine ⟨hnot, fun rounds => ?_, fun hanswer => hnot ?_⟩
  · have hnone : ofMatrix? rounds ⟨2, 2, #v[#v[4, 0], #v[2, 2]]⟩ = none :=
      Option.eq_none_iff_forall_ne_some.mpr fun f hf => hnot ⟨rounds, f, hf⟩
    rw [solve, if_neg (by decide), hnone]
  · exact (exists_hasLoopCarriedDependence_iff ⟨rfl, by decide, by decide⟩
      (List.cons_ne_nil _ _)).mp hanswer

end AffineLoops
