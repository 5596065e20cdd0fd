import AffineLoops.Proofs.Iteration
import AffineLoops.Proofs.Nest.Enumeration
import AffineLoops.Proofs.Rule.Locality
/-!
# Runs of a rule

An iteration succeeds if the cells that it reads and the one that it writes exist. A run over
iterations that all succeed leaves a grid of the same shape. If moreover the value of every iteration
is determined by those before it and by the cells around the domain, the run fills in these values.

## Main definitions

- `CellExpr.Readable`, `UpdateRule.Safe` — all cells of an iteration exist
- `UpdateRule.exists_run` — a run over safe iterations succeeds
- `Grid.Holds`, `UpdateRule.exists_run_holds` — the values that a run leaves behind
- `Nest.Realizes.exists_run_holds` — a nest solves the recurrence of its rule
-/

namespace AffineLoops

namespace CellExpr

/-- The offsets read from the auxiliary grid, from left to right. -/
def auxReads : CellExpr → List Point
  | .read _ => []
  | .aux offset => [offset]
  | .const _ => []
  | .add a b => a.auxReads ++ b.auxReads
  | .sub a b => a.auxReads ++ b.auxReads
  | .max a b => a.auxReads ++ b.auxReads
  | .min a b => a.auxReads ++ b.auxReads

/-- All cells that the expression reads at the iteration `p` exist. -/
structure Readable (e : CellExpr) (shape : Domain) (aux : Option Grid) (p : Point) : Prop where
  reads : ∀ o ∈ e.reads, shape.contains (p.shift o)
  auxReads : ∀ o ∈ e.auxReads, ∃ a, aux = some a ∧ a.shape.contains (p.shift o)

theorem exists_eval {e : CellExpr} {g : Grid} {aux : Option Grid} {p : Point}
    (h : e.Readable g.shape aux p) : ∃ v, e.eval g aux p = .ok v := by
  -- what the four operators have in common
  have hbinary : ∀ {a b : CellExpr}, (a.Readable g.shape aux p → ∃ v, a.eval g aux p = .ok v) →
      (b.Readable g.shape aux p → ∃ v, b.eval g aux p = .ok v) →
      (∀ o ∈ a.reads ++ b.reads, g.shape.contains (p.shift o)) →
      (∀ o ∈ a.auxReads ++ b.auxReads, ∃ a, aux = some a ∧ a.shape.contains (p.shift o)) →
        ∃ v w, a.eval g aux p = .ok v ∧ b.eval g aux p = .ok w := by
    intro a b iha ihb hreads haux
    obtain ⟨v, hv⟩ := iha ⟨fun o ho => hreads o (List.mem_append_left _ ho),
      fun o ho => haux o (List.mem_append_left _ ho)⟩
    obtain ⟨w, hw⟩ := ihb ⟨fun o ho => hreads o (List.mem_append_right _ ho),
      fun o ho => haux o (List.mem_append_right _ ho)⟩
    exact ⟨v, w, hv, hw⟩
  induction e with
  | read o =>
    obtain ⟨v, hv⟩ := Grid.exists_get (h.reads o List.mem_cons_self)
    exact ⟨v, by rw [eval, hv]; rfl⟩
  | aux o =>
    obtain ⟨a, ha, hin⟩ := h.auxReads o List.mem_cons_self
    obtain ⟨v, hv⟩ := Grid.exists_get hin
    exact ⟨v, by simp only [eval, readAux, ha, hv]; rfl⟩
  | const value => exact ⟨value, rfl⟩
  | add a b iha ihb =>
    obtain ⟨v, w, hv, hw⟩ := hbinary iha ihb h.reads h.auxReads
    exact ⟨v + w, by rw [eval, hv, hw]; rfl⟩
  | sub a b iha ihb =>
    obtain ⟨v, w, hv, hw⟩ := hbinary iha ihb h.reads h.auxReads
    exact ⟨v - w, by rw [eval, hv, hw]; rfl⟩
  | max a b iha ihb =>
    obtain ⟨v, w, hv, hw⟩ := hbinary iha ihb h.reads h.auxReads
    exact ⟨Max.max v w, by rw [eval, hv, hw]; rfl⟩
  | min a b iha ihb =>
    obtain ⟨v, w, hv, hw⟩ := hbinary iha ihb h.reads h.auxReads
    exact ⟨Min.min v w, by rw [eval, hv, hw]; rfl⟩

end CellExpr

/-- The grid has the shape and a cell per point, and holds the values of `f` at the points in `S`. -/
structure Grid.Holds (g : Grid) (shape : Domain) (S : Point → Prop) (f : Point → Cell) : Prop where
  shape_eq : g.shape = shape
  wellFormed : g.WellFormed
  get : ∀ p, S p → g.get p = .ok (f p)

namespace UpdateRule

variable {r : UpdateRule} {aux : Option Grid} {g : Grid} {shape : Domain} {p : Point}
  {ps : List Point} {S : Point → Prop} {f : Point → Cell}

/-- The cell of the iteration exists, and so do all that it reads. -/
structure Safe (r : UpdateRule) (shape : Domain) (aux : Option Grid) (p : Point) : Prop where
  write : shape.contains p
  read : r.expr.Readable shape aux p

theorem step?_eq_some {v : Cell} (hp : g.shape.contains p) (hv : r.value g aux p = .ok v) :
    ∃ k, g.shape.linearIndex? p = some k ∧ r.step? aux g p = some (g.setIndex k v) := by
  obtain ⟨k, hk⟩ := Domain.exists_linearIndex?_iff.mpr hp
  exact ⟨k, hk, step?_eq_some_iff.mpr ⟨v, k, hv, hk, rfl⟩⟩

theorem exists_step? (h : r.Safe g.shape aux p) :
    ∃ g', r.step? aux g p = some g' ∧ g'.shape = g.shape := by
  obtain ⟨v, hv⟩ := CellExpr.exists_eval h.read
  obtain ⟨k, -, hstep⟩ := step?_eq_some h.write hv
  exact ⟨_, hstep, rfl⟩

theorem exists_run (h : ∀ p ∈ ps, r.Safe g.shape aux p) :
    ∃ g', ps.foldlM (r.step? aux) g = some g' ∧ g'.shape = g.shape := by
  refine foldlM_prefix_induction (P := fun _ (g' : Grid) => g'.shape = g.shape) ps rfl ?_
  rintro before p after rfl g' hshape
  obtain ⟨g'', hstep, hshape'⟩ := exists_step? (g := g') (hshape ▸ h p (by simp))
  exact ⟨g'', hstep, hshape'.trans hshape⟩

/-- An iteration that computes its value of `f` adds it to the grid. -/
theorem exists_step?_holds (hd : shape.WellFormed) (hg : g.Holds shape S f) (hp : shape.contains p)
    (hv : r.value g aux p = .ok (f p)) :
    ∃ g', r.step? aux g p = some g' ∧ g'.Holds shape (fun q => S q ∨ q = p) f := by
  obtain ⟨rfl, hwf, hget⟩ := hg
  obtain ⟨k, hk, hstep⟩ := step?_eq_some hp hv
  refine ⟨_, hstep, rfl, Grid.setIndex_wellFormed hwf k _, fun q hq => ?_⟩
  by_cases hqp : q = p
  · rw [hqp]
    exact Grid.get_setIndex_self hd hwf hk _
  · rw [Grid.get_setIndex_of_ne fun hqk => hqp (Domain.linearIndex?_inj hd hqk hk)]
    exact hget q (hq.resolve_right hqp)

/-- A run fills in the values of `f`, if every iteration computes its own from the values of the
iterations before it and of the points in `S`. -/
theorem exists_run_holds (hd : shape.WellFormed) (hg : g.Holds shape S f)
    (hps : ∀ p ∈ ps, shape.contains p)
    (hvalue : ∀ before p after, ps = before ++ p :: after → ∀ g : Grid,
      g.Holds shape (fun q => S q ∨ q ∈ before) f → r.value g aux p = .ok (f p)) :
    ∃ g', ps.foldlM (r.step? aux) g = some g' ∧ g'.Holds shape (fun q => S q ∨ q ∈ ps) f := by
  refine foldlM_prefix_induction
    (P := fun before (g' : Grid) => g'.Holds shape (fun q => S q ∨ q ∈ before) f) ps (by simpa using hg) ?_
  intro before p after hsplit g' hg'
  obtain ⟨g'', hstep, hholds⟩ := exists_step?_holds hd hg' (hps p (by simp [hsplit]))
    (hvalue before p after hsplit g' hg')
  refine ⟨g'', hstep, hholds.shape_eq, hholds.wellFormed, fun q hq => hholds.get q ?_⟩
  simpa [or_assoc] using hq

end UpdateRule

/-- The run of a rule over a nest goes through the iterations one by one. -/
theorem Nest.final_visit_apply {nest : Nest} (hpos : nest.Forward) (hdef : nest.Defined)
    (hinv : nest.Inverts) (rule : UpdateRule) (aux : Option Grid) (input : Grid) :
    (nest.visit (rule.apply aux)).final input = nest.iterations.foldlM (rule.step? aux) input := by
  rw [visit_eq_forM hpos hdef hinv, UpdateRule.final_forM_apply]

/-- A nest solves a recurrence whose reads its transform all turns backwards, starting from the
values around the domain. -/
theorem Nest.Realizes.exists_run_holds {nest : Nest} {d shape : Domain} {t : Transform}
    (h : nest.Realizes d t) {rule : UpdateRule} {aux : Option Grid} {f : Point → Cell}
    (hshape : shape.WellFormed) (hsafe : ∀ p, d.contains p → rule.Safe shape aux p)
    (hback : ∀ o ∈ rule.reads, o.length = d.dim ∧ (t.apply o).lexSign < 0)
    (hvalue : ∀ p, d.contains p → ∀ g : Grid,
      (∀ o ∈ rule.reads, g.get (p.shift o) = .ok (f (p.shift o))) → rule.value g aux p = .ok (f p))
    {input : Grid} (hinput : input.Holds shape (fun q => shape.contains q ∧ ¬d.contains q) f) :
    ∃ g, (nest.visit (rule.apply aux)).final input = some g ∧ g.Holds shape (shape.contains ·) f := by
  rw [final_visit_apply h.forward h.defined h.inverts]
  have hmem : ∀ p ∈ nest.iterations, d.contains p := fun p => (h.enumerates.mem p).mp
  have hwrite : ∀ p ∈ nest.iterations, shape.contains p := fun p hp => (hsafe p (hmem p hp)).write
  have hcompute : ∀ before p after, nest.iterations = before ++ p :: after → ∀ g : Grid,
      g.Holds shape (fun q => (shape.contains q ∧ ¬d.contains q) ∨ q ∈ before) f →
        rule.value g aux p = .ok (f p) := by
    intro before p after hsplit g hg
    have hp : d.contains p := hmem p (by simp [hsplit])
    have hlen : p.length = t.dim := (Domain.length_of_contains hp).trans h.dim_eq
    -- what is read was computed before, unless it lies around the domain
    refine hvalue p hp g fun o ho => hg.get _ ?_
    obtain ⟨hdim, hsign⟩ := hback o ho
    by_cases hin : d.contains (p.shift o)
    · refine Or.inr ((hsplit ▸ h.enumerates).mem_before hin ?_)
      exact (h.proper.apply_shift_lt_iff hlen (hdim.trans h.dim_eq)).mpr hsign
    · exact Or.inl ⟨(hsafe p hp).read.reads o ho, hin⟩
  obtain ⟨g, hrun, hholds⟩ := UpdateRule.exists_run_holds hshape hinput hwrite hcompute
  refine ⟨g, hrun, hholds.shape_eq, hholds.wellFormed, fun q hq => hholds.get q ?_⟩
  by_cases hin : d.contains q
  · exact Or.inr ((h.enumerates.mem q).mpr hin)
  · exact Or.inl ⟨hq, hin⟩

end AffineLoops
