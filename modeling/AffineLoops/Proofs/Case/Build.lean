import AffineLoops.Case.Basic
import AffineLoops.Proofs.Derivation.General
import AffineLoops.Proofs.Dependence.Pattern
/-!
# Building cases

The cells read at an offset lie in the array for all iterations exactly if they do for the corners of
the domain. So a case is built exactly if its reads and its designated cell stay in the array and its
nest can be derived.

## Main definitions

- `CaseSpec.checkRead_eq_ok_iff` — what the corners decide
- `CaseSpec.withNest`, `Case.build_eq_ok_iff` — when a case is built, and what it is
-/

namespace AffineLoops

namespace Domain

variable {n : ℕ} {l u v w : Fin n → ℤ} {d : Domain}

theorem contains_ofFn_ofFn :
    contains ⟨List.ofFn l, List.ofFn u⟩ (List.ofFn v) ↔ ∀ i, l i ≤ v i ∧ v i < u i := by
  simp [contains_ofFn, List.getD_eq_getElem?_getD]

theorem corner_ofFn (mask : ℕ) : corner ⟨List.ofFn l, List.ofFn u⟩ mask =
    List.ofFn fun i : Fin n => if mask.testBit i then u i - 1 else l i := by
  apply List.ext_getElem
  · simp [corner]
  · intro i h₁ h₂
    simp [corner]

theorem mem_corners {p : Point} : p ∈ d.corners ↔ ∃ mask < 2 ^ d.dim, d.corner mask = p := by
  simp [corners, Nat.shiftLeft_eq]

/-- A box contains every point between two of its points. -/
theorem within_of_between {ls us : Point} {m : ℕ} {a p b : Fin m → ℤ} (ha : ∀ i, a i ≤ p i)
    (hb : ∀ i, p i ≤ b i) (hwa : within ls us (List.ofFn a)) (hwb : within ls us (List.ofFn b)) :
    within ls us (List.ofFn p) := by
  induction m generalizing ls us with
  | zero => simpa using hwa
  | succ m ih =>
    rw [List.ofFn_succ] at hwa hwb ⊢
    cases ls with
    | nil => rfl
    | cons x ls =>
      cases us with
      | nil => rfl
      | cons y us =>
        simp only [within, Bool.and_eq_true, decide_eq_true_eq] at hwa hwb ⊢
        exact ⟨⟨hwa.1.1.trans (ha 0), (hb 0).trans_lt hwb.1.2⟩,
          ih (fun i => ha i.succ) (fun i => hb i.succ) hwa.2 hwb.2⟩

/-- The corners decide whether a box lies in another one. -/
theorem forall_corners_iff (hlu : ∀ i, l i < u i) :
    (∀ c ∈ corners ⟨List.ofFn l, List.ofFn u⟩, d.contains c) ↔
      ∀ w : Fin n → ℤ, (∀ i, l i ≤ w i ∧ w i < u i) → d.contains (List.ofFn w) := by
  have hdim : dim ⟨List.ofFn l, List.ofFn u⟩ = n := List.length_ofFn
  simp only [mem_corners, hdim, corner_ofFn]
  constructor
  · intro hcorners w hw
    -- the first corner is the least point of the box, the last one is the greatest
    have hlow := hcorners _ ⟨0, by simp, rfl⟩
    have hhigh := hcorners _ ⟨2 ^ n - 1, by simp, rfl⟩
    simp only [Nat.zero_testBit, Bool.false_eq_true, if_false, Nat.testBit_two_pow_sub_one,
      Fin.is_lt, decide_true, if_true] at hlow hhigh
    rw [contains, Bool.and_eq_true, List.length_ofFn] at hlow hhigh ⊢
    exact ⟨hlow.1, within_of_between (fun i => (hw i).1) (fun i => Int.le_sub_one_of_lt (hw i).2)
      hlow.2 hhigh.2⟩
  · rintro hall c ⟨mask, -, rfl⟩
    refine hall _ fun i => ?_
    have hi := hlu i
    split <;> omega

/-- The points at an offset from those of a box are a box. -/
theorem forall_shift_iff {P : Point → Prop} :
    (∀ p, contains ⟨List.ofFn l, List.ofFn u⟩ p → P (p.shift (List.ofFn v))) ↔
      ∀ w : Fin n → ℤ, (∀ i, (l + v) i ≤ w i ∧ w i < (u + v) i) → P (List.ofFn w) := by
  constructor
  · intro hall w hw
    have hback := hall (List.ofFn (w - v)) (contains_ofFn_ofFn.mpr fun i => by
      have hi := hw i
      simp only [Pi.add_apply, Pi.sub_apply] at hi ⊢
      omega)
    rwa [← Point.ofFn_add, sub_add_cancel] at hback
  · intro hall p hp
    obtain ⟨w, rfl⟩ : ∃ w : Fin n → ℤ, p = List.ofFn w :=
      ⟨_, (Point.ofFn_toVec (contains_ofFn.mp hp).1).symm⟩
    rw [← Point.ofFn_add]
    refine hall _ fun i => ?_
    have hi := contains_ofFn_ofFn.mp hp i
    simp only [Pi.add_apply]
    omega

end Domain

namespace CaseSpec

variable {spec : CaseSpec} {o : Point}

/-- A read is accepted exactly if its offset has a coordinate per axis and its cells are in the array
for all iterations. -/
theorem checkRead_eq_ok_iff (hd : spec.domain.WellFormed) :
    spec.checkRead o = .ok () ↔ o.length = spec.domain.dim ∧
      ∀ p, spec.domain.contains p → spec.arrayShape.contains (p.shift o) := by
  obtain ⟨n, hn⟩ : ∃ n, spec.domain.dim = n := ⟨_, rfl⟩
  obtain ⟨l, u, hspec, hlu⟩ := hd.exists_ofFn hn
  by_cases hlen : o.length = n
  · obtain ⟨v, rfl⟩ : ∃ v : Fin n → ℤ, o = List.ofFn v := ⟨_, (Point.ofFn_toVec hlen).symm⟩
    have htranslate : spec.domain.translate (List.ofFn v) =
        .ok ⟨List.ofFn (l + v), List.ofFn (u + v)⟩ := by
      rw [Domain.translate, hn, if_neg (not_not_intro hlen), hspec, Point.ofFn_add, Point.ofFn_add]
    have hinside : (∀ p, spec.domain.contains p → spec.arrayShape.contains (p.shift (List.ofFn v))) ↔
        ∀ c ∈ Domain.corners ⟨List.ofFn (l + v), List.ofFn (u + v)⟩, spec.arrayShape.contains c := by
      rw [hspec, Domain.forall_shift_iff (P := (spec.arrayShape.contains ·)),
        Domain.forall_corners_iff fun i => by simpa using hlu i]
    rw [hinside, hn, checkRead, htranslate]
    simp only [Except.bind_eq_ok, Except.liftM_domain_eq_ok, Except.ok.injEq, exists_eq_left']
    split
    · next c hfind =>
      refine iff_of_false (fun h => by cases h) fun hall => ?_
      have hout := List.find?_some hfind
      simp [hall.2 c (List.mem_of_find?_eq_some hfind)] at hout
    · next hfind =>
      refine iff_of_true rfl ⟨hlen, fun c hc => ?_⟩
      simpa using List.find?_eq_none.mp hfind c hc
  · rw [checkRead, Domain.translate, hn, if_pos hlen]
    exact iff_of_false (fun h => by cases h) fun h => hlen h.1

theorem checkObservation_eq_ok_iff :
    spec.checkObservation = .ok () ↔
      ∀ p, spec.observation = .cell p → spec.arrayShape.contains p := by
  unfold checkObservation
  split
  · next p hp =>
    rw [hp]
    by_cases hin : spec.arrayShape.contains p <;> simp [hin]
  · next hother => exact iff_of_true rfl fun p hp => absurd hp (hother p)

/-- The case of a specification, once its nest is derived. -/
def withNest (spec : CaseSpec) (nest : Nest) : Case where
  name := spec.name
  reference := (Nest.reference spec.domain).withBody spec.rule
  transformed := nest.withBody spec.rule
  dependences := spec.dependences
  rule := spec.rule
  observation := spec.observation
  arrayShape := spec.arrayShape
  input := spec.input
  aux := spec.aux

end CaseSpec

/-- A case is built when its reads and its designated cell are accepted and its dependences and its
nest can be derived. -/
theorem Case.build_eq_ok_iff {spec : CaseSpec} {c : Case} :
    build spec = .ok c ↔ (∀ o ∈ spec.rule.reads, spec.checkRead o = .ok ()) ∧
      spec.checkObservation = .ok () ∧
        (∃ deps, spec.rule.dependencePattern spec.domain.dim = .ok deps) ∧
          ∃ nest, Nest.derive spec.domain spec.transform = .ok nest ∧ spec.withNest nest = c := by
  rw [build, Except.bind_eq_ok]
  simp only [Except.bind_eq_ok]
  constructor
  · rintro ⟨⟨⟩, hreads, ⟨⟩, hobserved, deps, hdeps, nest, hnest, h⟩
    cases h
    exact ⟨Except.forM_eq_ok.mp hreads, hobserved, ⟨deps, hdeps⟩, nest, hnest, rfl⟩
  · rintro ⟨hreads, hobserved, ⟨deps, hdeps⟩, nest, hnest, rfl⟩
    exact ⟨(), Except.forM_eq_ok.mpr hreads, (), hobserved, deps, hdeps, nest, hnest, rfl⟩

/-- A case over a domain whose reads stay in the array is built, and its nest realizes the
transform. -/
theorem Case.exists_build {spec : CaseSpec} {deps : DependencePattern}
    (hd : spec.domain.WellFormed) (ht : spec.transform.Proper)
    (hdim : spec.domain.dim = spec.transform.dim)
    (hclass : spec.transform.dim = 2 ∨ spec.transform.matrix.IsSignedPermutation)
    (hreads : ∀ o ∈ spec.rule.reads, o.length = spec.domain.dim ∧
      ∀ p, spec.domain.contains p → spec.arrayShape.contains (p.shift o))
    (hobserved : ∀ p, spec.observation = .cell p → spec.arrayShape.contains p)
    (hdeps : spec.rule.dependencePattern spec.domain.dim = .ok deps) :
    ∃ nest, build spec = .ok (spec.withNest nest) ∧
      nest.Realizes spec.domain spec.transform := by
  obtain ⟨nest, hnest, hreal⟩ := Nest.exists_derive hd ht hdim hclass
  refine ⟨nest, build_eq_ok_iff.mpr ⟨fun o ho => ?_, ?_, ⟨deps, hdeps⟩, nest, hnest, rfl⟩, hreal⟩
  · exact (CaseSpec.checkRead_eq_ok_iff hd).mpr (hreads o ho)
  · exact CaseSpec.checkObservation_eq_ok_iff.mpr hobserved

end AffineLoops
