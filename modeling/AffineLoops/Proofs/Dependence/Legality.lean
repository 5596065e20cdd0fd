import AffineLoops.Proofs.Dependence.Pattern
import AffineLoops.Proofs.Derivation.General
import AffineLoops.Proofs.Nest.Coverage
/-!
# Legality

A nest that realizes a transform covers its domain, and visits the source of a dependence first
exactly if the image of the offset points backwards. So the order check fails for an offset that the
transform turns around, as soon as the domain has two points at this distance, and for nothing else.

## Main definitions

- `Nest.Realizes.exists_visitLog` — the log of a walk
- `Nest.Realizes.verifyOrder_eq_ok_iff` — the order check
- `Nest.verifyOrder_of_derive` — the order check of a derived nest
-/

namespace AffineLoops.Nest

variable {nest : Nest} {d : Domain} {t : Transform} {deps : DependencePattern} {o p : Point}

namespace Realizes

theorem exists_visitLog (h : nest.Realizes d t) :
    ∃ log, nest.visitLog = .ok log ∧ log.Records d nest.iterations := by
  have hdomain : nest.domain.WellFormed := h.domain ▸ h.wellFormed
  obtain ⟨log, hlog⟩ := Nest.exists_visitLog h.forward hdomain h.defined h.inverts
    (h.domain ▸ h.perm_points)
  obtain ⟨-, -, hrecords, -⟩ := visitLog_eq_ok h.forward hdomain hlog
  exact ⟨log, hlog, h.domain ▸ hrecords⟩

theorem verifyCoverage_eq_ok (h : nest.Realizes d t) : nest.verifyCoverage = .ok () := by
  obtain ⟨log, hlog, -⟩ := h.exists_visitLog
  rw [verifyCoverage, hlog]
  rfl

/-- The source of a dependence is visited first exactly if the image of the offset is negative. -/
theorem time?_lt_iff (h : nest.Realizes d t) {log : VisitLog} (hlog : log.Records d nest.iterations)
    (hp : d.contains p) (hsource : d.contains (p.shift o)) (ho : o.length = d.dim) :
    (∀ i j, log.time? p = some i → log.time? (p.shift o) = some j → j < i) ↔
      (t.apply o).lexSign < 0 := by
  obtain ⟨i, hi⟩ := List.mem_iff_getElem?.mp ((h.enumerates.mem p).mpr hp)
  obtain ⟨j, hj⟩ := List.mem_iff_getElem?.mp ((h.enumerates.mem _).mpr hsource)
  have hlen := Domain.length_of_contains hp
  rw [← h.proper.apply_shift_lt_iff (hlen.trans h.dim_eq) (ho.trans h.dim_eq),
    ← h.enumerates.lt_iff hj hi]
  simp [(hlog.time p i).mpr hi, (hlog.time (p.shift o) j).mpr hj]

/-- The order check passes exactly if no offset is turned around that two points of the domain
have. -/
theorem verifyOrder_eq_ok_iff (h : nest.Realizes d t) (hdim : deps.dim = d.dim)
    (hdeps : ∀ o ∈ deps.offsets, o.length = d.dim) :
    nest.verifyOrder deps = .ok () ↔ ∀ o ∈ deps.violations t, ¬d.Fits o := by
  obtain ⟨log, hlog, hrecords⟩ := h.exists_visitLog
  have hcheck : nest.verifyOrder deps = .ok () ↔ ∀ p, d.contains p → ∀ o ∈ deps.offsets,
      ∀ i j, log.time? p = some i → log.time? (p.shift o) = some j → j < i := by
    rw [Nest.verifyOrder_eq_ok_iff (h.domain ▸ h.wellFormed), h.domain, hlog]
    simp
  rw [hcheck]
  constructor
  · intro horder o ho hfits
    -- two points at this distance exist, and are visited in the wrong order
    obtain ⟨hmem, hsign⟩ := (DependencePattern.mem_violations (h.dim_eq.symm.trans hdim.symm)).mp ho
    obtain ⟨p, hp, hsource⟩ :=
      (Domain.exists_contains_shift_iff h.wellFormed (hdeps o hmem)).mpr hfits
    have hneg := (h.time?_lt_iff hrecords hp hsource (hdeps o hmem)).mp (horder p hp o hmem)
    omega
  · intro hfits p hp o ho i j hi hj
    have hsource : d.contains (p.shift o) :=
      hrecords.contains (List.mem_of_getElem? ((hrecords.time _ j).mp hj))
    refine (h.time?_lt_iff hrecords hp hsource (hdeps o ho)).mpr ?_ i j hi hj
    by_contra hsign
    exact hfits o ((DependencePattern.mem_violations (h.dim_eq.symm.trans hdim.symm)).mpr
      ⟨ho, not_lt.mp hsign⟩) ((Domain.exists_contains_shift_iff h.wellFormed (hdeps o ho)).mp
        ⟨p, hp, hsource⟩)

theorem verifyOrder_eq_error (h : nest.Realizes d t) {e : Error}
    (herr : nest.verifyOrder deps = .error e) : e.derivationKind? = some .dependenceOrder := by
  obtain ⟨log, hlog, -⟩ := h.exists_visitLog
  exact Nest.verifyOrder_eq_error hlog herr

theorem verifyOrder_of_isRespectedBy (h : nest.Realizes d t) (hdim : deps.dim = d.dim)
    (hdeps : ∀ o ∈ deps.offsets, o.length = d.dim) (hresp : deps.isRespectedBy t) :
    nest.verifyOrder deps = .ok () :=
  (h.verifyOrder_eq_ok_iff hdim hdeps).mpr fun o ho =>
    absurd ho (DependencePattern.isRespectedBy_iff.mp hresp o)

end Realizes

/-- The order check of a derived nest is predicted by the images of the offsets. It fails exactly if
some offset is turned around by the transform and shorter than the domain on every axis, and then
for the order and not for the coverage. So it passes on every domain if the transform respects the
dependences. -/
theorem verifyOrder_of_derive (hd : d.WellFormed) (ht : t.Proper) (hnest : derive d t = .ok nest)
    {offsets : List Point} (hdeps : DependencePattern.ofOffsets d.dim offsets = .ok deps) :
    (nest.verifyOrder deps = .ok () ↔ ¬∃ o ∈ deps.violations t, d.Fits o) ∧
      (∀ e, nest.verifyOrder deps = .error e → e.derivationKind? = some .dependenceOrder) ∧
        (deps.isRespectedBy t → nest.verifyOrder deps = .ok ()) := by
  have hreal := realizes_of_derive hd ht hnest
  obtain ⟨hdim, -, hoffsets⟩ := DependencePattern.ofOffsets_eq_ok hdeps
  have hlength : ∀ o ∈ deps.offsets, o.length = d.dim := fun o ho => (hoffsets o ho).1
  refine ⟨?_, fun e => hreal.verifyOrder_eq_error, hreal.verifyOrder_of_isRespectedBy hdim hlength⟩
  rw [hreal.verifyOrder_eq_ok_iff hdim hlength]
  push Not
  rfl

/-- An exchange of two axes turns the offset `(-1, 1)` around. On a square the order check fails, on
a single row it passes, since no two points have this distance. -/
theorem verifyOrder_exchanged :
    (∃ nest e, derive ⟨[0, 0], [3, 3]⟩ ⟨⟨2, 2, #v[#v[0, 1], #v[1, 0]]⟩, -1⟩ = .ok nest ∧
      nest.verifyOrder ⟨2, [[-1, 1]]⟩ = .error e ∧ e.derivationKind? = some .dependenceOrder) ∧
    ∃ nest, derive ⟨[0, 0], [1, 3]⟩ ⟨⟨2, 2, #v[#v[0, 1], #v[1, 0]]⟩, -1⟩ = .ok nest ∧
      nest.verifyOrder ⟨2, [[-1, 1]]⟩ = .ok () := by
  have ht : Transform.Proper ⟨⟨2, 2, #v[#v[0, 1], #v[1, 0]]⟩, -1⟩ := by
    have hmade : Transform.Constructed ⟨⟨2, 2, #v[#v[0, 1], #v[1, 0]]⟩, -1⟩ :=
      .ofMatrix (m := ⟨2, 2, #v[#v[0, 1], #v[1, 0]]⟩) (by decide)
    exact hmade.wellFormed.proper
  have hdeps : DependencePattern.ofOffsets 2 [[-1, 1]] = .ok ⟨2, [[-1, 1]]⟩ := by decide
  have hturned : [-1, 1] ∈ DependencePattern.violations ⟨2, [[-1, 1]]⟩
      ⟨⟨2, 2, #v[#v[0, 1], #v[1, 0]]⟩, -1⟩ := by decide
  constructor
  · have hsquare : Domain.WellFormed ⟨[0, 0], [3, 3]⟩ := .cons (by decide) (.cons (by decide) .nil)
    obtain ⟨nest, hnest, -⟩ := exists_derive hsquare ht rfl (Or.inl rfl)
    obtain ⟨hiff, hkind, -⟩ := verifyOrder_of_derive hsquare ht hnest hdeps
    cases hcheck : nest.verifyOrder ⟨2, [[-1, 1]]⟩ with
    | error e => exact ⟨nest, e, hnest, hcheck, hkind e hcheck⟩
    | ok =>
      exact absurd ⟨_, hturned, .cons (by decide) (.cons (by decide) .nil)⟩ (hiff.mp hcheck)
  · have hrow : Domain.WellFormed ⟨[0, 0], [1, 3]⟩ := .cons (by decide) (.cons (by decide) .nil)
    obtain ⟨nest, hnest, -⟩ := exists_derive hrow ht rfl (Or.inl rfl)
    refine ⟨nest, hnest, (verifyOrder_of_derive hrow ht hnest hdeps).1.mpr ?_⟩
    rintro ⟨o, ho, hfits⟩
    obtain rfl : o = [-1, 1] := by simpa using List.mem_of_mem_filter ho
    cases hfits with
    | cons hfirst _ => exact absurd hfirst (by decide)

end AffineLoops.Nest
