import AffineLoops.Proofs.Dependence.Legality
import AffineLoops.Proofs.Derivation.Permuted
import AffineLoops.Proofs.Nest.Checks
/-!
# Permuted nests of other transforms

The permuted derivation reads the first nonzero entry of every row and nothing behind it. It fails if
one of these entries is not a unit, and gives the loops of a box otherwise. The box is the image of
the domain for every signed permutation, and for a few other transforms on domains with an axis of a
single point. In all other cases the nest is returned all the same, and visits other iterations than
those of its domain.

## Main definitions

- `Transform.leadingAxis`, `Transform.leadingEntry` — the first nonzero entry of a row
- `Transform.PermutesOn` — the image of the domain is the box of the leading entries
- `Nest.verifyCoverage_iff_realizes` — what coverage means for a nest with the inverse of its transform
- `Nest.image_eq_box_iff`, `Nest.copies_iff` — when the image of a box is that of the leading entries
- `Nest.derivePermuted_exact` — when the derivation fails, and when its nest covers the domain
-/

namespace AffineLoops

open Matrix DenseMatrix

namespace Transform

/-- The column of the first nonzero entry of a row, 0 if there is none. -/
def leadingAxis (t : Transform) (row : ℕ) : ℕ :=
  ((List.range t.dim).find? (t.matrix.entry row · ≠ 0)).getD 0

/-- The first nonzero entry of a row. -/
def leadingEntry (t : Transform) (row : ℕ) : ℤ :=
  t.matrix.entry row (t.leadingAxis row)

/-- The leading entry of a row is 1 or -1. -/
def LeadsWithUnit (t : Transform) (row : ℕ) : Prop :=
  t.leadingEntry row = 1 ∨ t.leadingEntry row = -1

instance (t : Transform) (row : ℕ) : Decidable (t.LeadsWithUnit row) :=
  inferInstanceAs (Decidable (_ ∨ _))

/-- On this domain, every coordinate of an image is the coordinate of the iteration on the leading
axis of the row, with a sign, and the coordinates of different rows do not depend on each other. -/
structure PermutesOn (t : Transform) (d : Domain) : Prop where
  unit : ∀ i < t.dim, t.LeadsWithUnit i
  /-- Behind the leading entry only axes with a single point count. -/
  trailing : ∀ i < t.dim, ∀ j < t.dim, j ≠ t.leadingAxis i → d.extent? j ≠ some 1 →
    t.matrix.entry i j = 0
  /-- What these add to the coordinate is zero. -/
  corner : ∀ i < t.dim,
    (t.apply d.lower).getD i 0 = t.leadingEntry i * d.lower.getD (t.leadingAxis i) 0
  /-- Two rows only share an axis with a single point. -/
  separate : ∀ i < t.dim, ∀ j < t.dim, i ≠ j → t.leadingAxis i = t.leadingAxis j →
    d.extent? (t.leadingAxis i) = some 1

end Transform

namespace Nest

variable {nest : Nest} {d : Domain} {t : Transform}

/-- A nest with the inverse map of its transform covers its domain exactly if its tuples are the
images of the points. -/
theorem verifyCoverage_iff_realizes (hinv : nest.inverse = nest.transform.inverse)
    (hd : nest.domain.WellFormed) (ht : nest.transform.Proper)
    (hdim : nest.domain.dim = nest.transform.dim) (hdepth : nest.depth = nest.transform.dim)
    (hpos : nest.Forward) :
    nest.verifyCoverage = .ok () ↔ nest.Realizes nest.domain nest.transform := by
  refine ⟨fun hok => ?_, Realizes.verifyCoverage_eq_ok⟩
  obtain ⟨log, hlog⟩ := verifyCoverage_eq_ok_iff_log.mp hok
  obtain ⟨hdef, hinverts, -, hperm⟩ := visitLog_eq_ok hpos hd hlog
  have himage : ∀ q ∈ nest.tuples, nest.transform.apply (nest.iterationOf q) = q := by
    intro q hq
    obtain ⟨p, hp⟩ := hinverts q hq
    have hlen : q.length = nest.transform.dim := (length_of_mem_tuples hq).trans hdepth
    have hcontains : nest.domain.contains (nest.iterationOf q) :=
      (Domain.mem_points hd).mp (hperm.subset (List.mem_map_of_mem hq))
    have hlen' := (Domain.length_of_contains hcontains).trans hdim
    by_cases hzero : nest.transform.dim = 0
    · -- without axes there is one tuple only
      have hnil := List.length_eq_zero_iff.mp (hlen.trans hzero)
      rw [hnil]
      exact List.length_eq_zero_iff.mp ((ht.length_apply (hnil ▸ hlen')).trans hzero)
    · rw [iterationOf_eq hp]
      rw [hinv] at hp
      exact (((ht.wellFormed hzero).apply_inverse_eq_ok hlen).mp hp).2
  refine ⟨rfl, rfl, hinv, hd, ht, hdim, hpos, hdef, fun q => ⟨fun hq => ?_, ?_⟩⟩
  · exact ⟨_, (Domain.mem_points hd).mp (hperm.subset (List.mem_map_of_mem hq)), himage q hq⟩
  · rintro ⟨p, hp, rfl⟩
    obtain ⟨q, hq, rfl⟩ := List.mem_map.mp (hperm.symm.subset ((Domain.mem_points hd).mpr hp))
    rwa [himage q hq]

/-! ### The image of a box -/

variable {n : ℕ} {σ : Fin n → Fin n} {s l u : Fin n → ℤ}

/-- Replacing one coordinate of a vector moves the product along a column. -/
theorem mulVec_update (a : Matrix (Fin n) (Fin n) ℤ) (x : Fin n → ℤ) (i c : Fin n) (y : ℤ) :
    (a *ᵥ Function.update x c y) i = (a *ᵥ x) i + a i c * (y - x c) := by
  have hsplit : Function.update x c y = x + Pi.single c (y - x c) := by
    funext j
    by_cases hj : j = c
    · subst hj
      simp
    · simp [hj]
  rw [hsplit, mulVec_add, Pi.add_apply, mulVec_single]
  simp

/-- The coordinates of the vector lie between the bounds. -/
def InBox (l u x : Fin n → ℤ) : Prop :=
  ∀ c, l c ≤ x c ∧ x c < u c

theorem InBox.update {x : Fin n → ℤ} (hx : InBox l u x) {c : Fin n} {y : ℤ} (hl : l c ≤ y)
    (hu : y < u c) : InBox l u (Function.update x c y) := by
  intro j
  by_cases hj : j = c
  · subst hj
    simpa using ⟨hl, hu⟩
  · simpa [hj] using hx j

/-- Every coordinate of the image of a box vector is one of its coordinates, with a sign. -/
def Copies (a : Matrix (Fin n) (Fin n) ℤ) (σ : Fin n → Fin n) (s l u : Fin n → ℤ) : Prop :=
  ∀ x, InBox l u x → ∀ i, (a *ᵥ x) i = s i * x (σ i)

/-- No coordinate is read by two rows, unless it has a single value. -/
def Separates (σ : Fin n → Fin n) (l u : Fin n → ℤ) : Prop :=
  ∀ i j, i ≠ j → σ i = σ j → u (σ i) - l (σ i) = 1

variable {a : Matrix (Fin n) (Fin n) ℤ}

/-- A coordinate is copied exactly if the entries besides the leading one belong to axes with a single
value and cancel out there. -/
theorem copies_iff (hlead : ∀ i, a i (σ i) = s i) (hlu : ∀ c, l c < u c) : Copies a σ s l u ↔
    (∀ i j, j ≠ σ i → u j - l j ≠ 1 → a i j = 0) ∧ ∀ i, (a *ᵥ l) i = s i * l (σ i) := by
  have hcorner : InBox l u l := fun c => ⟨le_rfl, hlu c⟩
  constructor
  · intro h
    refine ⟨fun i j hj hwide => ?_, h l hcorner⟩
    -- a step along the axis leaves the copied coordinate alone
    have hlt := hlu j
    have hstep := h _ (hcorner.update (c := j) (y := l j + 1) (by omega) (by omega)) i
    rw [mulVec_update, h l hcorner, Function.update_of_ne hj.symm] at hstep
    simpa using hstep
  · rintro ⟨htrailing, hfixed⟩ x hx i
    have hdiff : (a *ᵥ (x - l)) i = s i * (x (σ i) - l (σ i)) := by
      rw [mulVec, dotProduct, Finset.sum_eq_single (σ i), hlead, Pi.sub_apply]
      · intro j _ hj
        by_cases hwide : u j - l j = 1
        · have hval := hx j
          have hzero : x j - l j = 0 := by omega
          rw [Pi.sub_apply, hzero, mul_zero]
        · rw [htrailing i j hj hwide, zero_mul]
      · exact fun hmem => absurd (Finset.mem_univ _) hmem
    have hsum := congrFun (mulVec_sub a x l) i
    rw [hdiff, Pi.sub_apply, hfixed] at hsum
    linarith

/-- If the image stays in the box of the leading entries, every coordinate is copied: moved to either
end of its axis, it can add nothing to the coordinate that it leads. -/
theorem copies_of_image_subset (hs : ∀ i, s i = 1 ∨ s i = -1) (hlead : ∀ i, a i (σ i) = s i)
    (hlu : ∀ c, l c < u c) (h : ∀ x, InBox l u x → InBox (l ∘ σ) (u ∘ σ) fun i => s i * (a *ᵥ x) i) :
    Copies a σ s l u := by
  intro x hx i
  have hmove : ∀ y, s i * (a *ᵥ Function.update x (σ i) y) i = s i * (a *ᵥ x) i + (y - x (σ i)) := by
    intro y
    rw [mulVec_update, hlead, mul_add, ← mul_assoc, sq_of_unit hs, one_mul]
  have hlt := hlu (σ i)
  have hlow := (h _ (hx.update (c := σ i) (y := l (σ i)) le_rfl hlt) i).1
  have hhigh := (h _ (hx.update (c := σ i) (y := u (σ i) - 1) (by omega) (by omega)) i).2
  simp only [hmove, Function.comp_apply] at hlow hhigh
  have hcopy : s i * (a *ᵥ x) i = x (σ i) := by omega
  rw [← hcopy, ← mul_assoc, sq_of_unit hs, one_mul]

/-- A vector whose coordinates have given values where a row reads them. -/
theorem exists_inBox_read (hlu : ∀ c, l c < u c) (hsep : Separates σ l u) {y : Fin n → ℤ}
    (hy : InBox (l ∘ σ) (u ∘ σ) y) : ∃ x, InBox l u x ∧ ∀ i, x (σ i) = y i := by
  classical
  refine ⟨fun c => if h : ∃ i, σ i = c then y h.choose else l c, fun c => ?_, fun i => ?_⟩
  · by_cases h : ∃ i, σ i = c
    · have hval := hy h.choose
      simp only [Function.comp_apply, h.choose_spec] at hval
      simpa only [dif_pos h] using hval
    · simpa only [dif_neg h] using ⟨le_rfl, hlu c⟩
  · have h : ∃ j, σ j = σ i := ⟨i, rfl⟩
    simp only [dif_pos h]
    by_cases heq : h.choose = i
    · rw [heq]
    · have hval := hy h.choose
      have hval' := hy i
      simp only [Function.comp_apply, h.choose_spec] at hval hval'
      have hone := hsep _ _ heq h.choose_spec
      rw [h.choose_spec] at hone
      omega

/-- The image is the box of the leading entries exactly if every coordinate is copied, and none of
them twice. -/
theorem image_eq_box_iff (hs : ∀ i, s i = 1 ∨ s i = -1) (hlead : ∀ i, a i (σ i) = s i)
    (hlu : ∀ c, l c < u c) :
    (∀ y : Fin n → ℤ, (InBox (l ∘ σ) (u ∘ σ) fun i => s i * y i) ↔ ∃ x, InBox l u x ∧ a *ᵥ x = y) ↔
      Copies a σ s l u ∧ Separates σ l u := by
  have hsq := sq_of_unit hs
  constructor
  · intro h
    have hcopies : Copies a σ s l u :=
      copies_of_image_subset hs hlead hlu fun x hx => (h _).mpr ⟨x, hx, rfl⟩
    refine ⟨hcopies, fun i j hij haxis => ?_⟩
    -- otherwise the box has a point with two values on one axis
    by_contra hwide
    have hlt := hlu (σ i)
    have hcorner : InBox (l ∘ σ) (u ∘ σ) (l ∘ σ) := fun c => ⟨le_rfl, hlu (σ c)⟩
    have hbox := hcorner.update (c := i) (y := l (σ i) + 1) (by simp) (by simp; omega)
    obtain ⟨x, hx, himage⟩ := (h fun k => s k * Function.update (l ∘ σ) i (l (σ i) + 1) k).mp <| by
      simpa only [← mul_assoc, hsq, one_mul] using hbox
    have hread : ∀ k, x (σ k) = Function.update (l ∘ σ) i (l (σ i) + 1) k := by
      intro k
      have hk := congrFun himage k
      rw [hcopies x hx] at hk
      simpa only [← mul_assoc, hsq, one_mul] using congrArg (s k * ·) hk
    have hi := hread i
    have hj := hread j
    rw [Function.update_self] at hi
    rw [Function.update_of_ne hij.symm, ← haxis, hi] at hj
    simp [haxis] at hj
  · rintro ⟨hcopies, hsep⟩ y
    constructor
    · intro hy
      obtain ⟨x, hx, hread⟩ := exists_inBox_read hlu hsep hy
      refine ⟨x, hx, funext fun i => ?_⟩
      rw [hcopies x hx, hread, ← mul_assoc, hsq, one_mul]
    · rintro ⟨x, hx, rfl⟩ i
      simp only [hcopies x hx, ← mul_assoc, hsq, one_mul]
      exact hx (σ i)

/-! ### Leading entries of a transform -/

/-- No row is zero, so every row has a leading entry. -/
theorem find?_row_eq_leadingAxis (ht : t.Proper) {i : ℕ} (hi : i < t.dim) :
    (List.range t.dim).find? (t.matrix.entry i · ≠ 0) = some (t.leadingAxis i) := by
  have hdet : (t.matrix.toMatrix t.dim t.dim).det ≠ 0 := by
    have hwf := ht.wellFormed (by omega)
    exact hwf.det_eq ▸ hwf.det_ne_zero
  cases hfind : (List.range t.dim).find? (t.matrix.entry i · ≠ 0) with
  | none =>
    rw [List.find?_eq_none] at hfind
    refine absurd (det_eq_zero_of_row_eq_zero ⟨i, hi⟩ fun j => ?_) hdet
    simpa using hfind j (List.mem_range.mpr j.2)
  | some c => rw [Transform.leadingAxis, hfind, Option.getD_some]

theorem exists_leads (ht : t.Proper) (hunit : ∀ i < t.dim, t.LeadsWithUnit i) :
    ∃ σ : Fin t.dim → Fin t.dim, (∀ i, (σ i : ℕ) = t.leadingAxis i) ∧
      Leads t σ fun i => t.leadingEntry i := by
  have hrow : ∀ i : Fin t.dim,
      t.leadingAxis i < t.dim ∧ ∀ j < t.leadingAxis i, t.matrix.entry i j = 0 := by
    intro i
    obtain ⟨-, hmem, hbefore⟩ := List.find?_range_eq_some.mp (find?_row_eq_leadingAxis ht i.2)
    exact ⟨List.mem_range.mp hmem, fun j hj => by simpa using hbefore j hj⟩
  exact ⟨fun i => ⟨t.leadingAxis i, (hrow i).1⟩, fun i => rfl, fun i => hunit i i.2, fun i => rfl,
    fun i j hj => (hrow i).2 j hj⟩

theorem permutesOn_iff (ht : t.Proper) {σ : Fin t.dim → Fin t.dim} {l u : Fin t.dim → ℤ}
    (hσ : ∀ i, (σ i : ℕ) = t.leadingAxis i) (hlead : Leads t σ fun i => t.leadingEntry i)
    (hlu : ∀ c, l c < u c) :
    t.PermutesOn ⟨List.ofFn l, List.ofFn u⟩ ↔
      Copies (t.matrix.toMatrix t.dim t.dim) σ (fun i => t.leadingEntry i) l u ∧ Separates σ l u := by
  have hextent : ∀ c : Fin t.dim, Domain.extent? ⟨List.ofFn l, List.ofFn u⟩ c = some (u c - l c) := by
    intro c
    simp [Domain.extent?, Domain.extents]
  have hcorner : ∀ i : Fin t.dim, (t.apply (List.ofFn l)).getD i 0 =
      (t.matrix.toMatrix t.dim t.dim *ᵥ l) i := by
    intro i
    rw [ht.apply_eq (List.length_ofFn), Point.toVec_ofFn]
    simp [List.getD_eq_getElem?_getD]
  rw [copies_iff hlead.leading hlu]
  constructor
  · intro h
    refine ⟨⟨fun i j hj hwide => ?_, fun i => ?_⟩, fun i j hij haxis => ?_⟩
    · refine h.trailing i i.2 j j.2 (fun heq => hj (Fin.ext (heq.trans (hσ i).symm))) ?_
      rw [hextent]
      simpa using hwide
    · have hi := h.corner i i.2
      rw [hcorner, ← hσ] at hi
      simpa [List.getD_eq_getElem?_getD] using hi
    · have hone := h.separate i i.2 j j.2 (fun heq => hij (Fin.ext heq)) (by rw [← hσ, ← hσ, haxis])
      rw [← hσ, hextent] at hone
      simpa using hone
  · rintro ⟨⟨htrailing, hfixed⟩, hsep⟩
    refine ⟨fun i hi => hlead.unit ⟨i, hi⟩, fun i hi j hj hne hwide => ?_, fun i hi => ?_,
      fun i hi j hj hij haxis => ?_⟩
    · refine htrailing ⟨i, hi⟩ ⟨j, hj⟩ (fun heq => hne ?_) (fun hone => hwide ?_)
      · rw [← hσ ⟨i, hi⟩, ← heq]
      · rw [hextent ⟨j, hj⟩, hone]
    · have h := hfixed ⟨i, hi⟩
      rw [hcorner ⟨i, hi⟩, h, ← hσ ⟨i, hi⟩]
      simp [List.getD_eq_getElem?_getD]
    · have h := hsep ⟨i, hi⟩ ⟨j, hj⟩ (fun heq => hij (Fin.ext_iff.mp heq))
        (Fin.ext (by rw [hσ, hσ]; exact haxis))
      rw [← hσ ⟨i, hi⟩, hextent, h]

theorem exists_image_iff (ht : t.Proper) {l u : Fin t.dim → ℤ} {q : Point} :
    (∃ p, Domain.contains ⟨List.ofFn l, List.ofFn u⟩ p ∧ t.apply p = q) ↔
      q.length = t.dim ∧ ∃ x, InBox l u x ∧ t.matrix.toMatrix t.dim t.dim *ᵥ x = q.toVec t.dim := by
  simp only [Domain.contains_ofFn]
  constructor
  · rintro ⟨p, ⟨hlen, hrange⟩, rfl⟩
    exact ⟨ht.length_apply hlen, p.toVec t.dim, hrange, by rw [ht.apply_eq hlen, Point.toVec_ofFn]⟩
  · rintro ⟨hlen, x, hx, himage⟩
    refine ⟨List.ofFn x, ⟨List.length_ofFn, fun i => ?_⟩, ?_⟩
    · simpa [List.getD_eq_getElem?_getD] using hx i
    · rw [ht.apply_eq List.length_ofFn, Point.toVec_ofFn, himage, Point.ofFn_toVec hlen]

/-- The tuples of the loops are those of the box of the leading entries. -/
theorem mem_tuples_permuted (hs : ∀ i, s i = 1 ∨ s i = -1) {q : Point} :
    q ∈ (reference (.permuted σ s l u)).tuples ↔
      q.length = n ∧ InBox (l ∘ σ) (u ∘ σ) fun i => s i * q.toVec n i := by
  rw [mem_tuples_reference (by simp [Domain.permuted]), Domain.permuted, Domain.contains_ofFn]
  refine and_congr_right fun _ => forall_congr' fun i => ?_
  have hback : q.getD i 0 = s i * (s i * q.getD i 0) := by rw [← mul_assoc, sq_of_unit hs, one_mul]
  rw [hback, mem_permuted_range (hs i)]
  rfl

/-- The nest of a transform whose rows lead with units covers the domain exactly if the transform only
permutes its coordinates there. Otherwise the coverage check reports a mismatch. -/
theorem verifyCoverage_of_leads (hd : d.WellFormed) (ht : t.Proper) (hdim : d.dim = t.dim)
    (hunit : ∀ i < t.dim, t.LeadsWithUnit i) :
    ∃ nest, derivePermuted d t = .ok nest ∧ (nest.verifyCoverage = .ok () ↔ t.PermutesOn d) ∧
      ∀ e, nest.verifyCoverage = .error e → e.derivationKind? = some .boundsMismatch := by
  obtain ⟨l, u, rfl, hlu⟩ := hd.exists_ofFn hdim
  obtain ⟨σ, hσ, hlead⟩ := exists_leads ht hunit
  obtain ⟨nest, hnest⟩ : ∃ nest : Nest, nest = ⟨⟨List.ofFn l, List.ofFn u⟩, t,
      (reference (.permuted σ (fun i => t.leadingEntry i) l u)).loops, t.inverse, none⟩ := ⟨_, rfl⟩
  have hpos : nest.Forward := hnest ▸ reference_forward _
  have hdef : nest.Defined := hnest ▸ reference_defined _
  have hdepth : nest.depth = t.dim := by simp [hnest, depth, reference, Domain.permuted]
  have hcovers : nest.verifyCoverage = .ok () ↔ t.PermutesOn ⟨List.ofFn l, List.ofFn u⟩ := by
    rw [permutesOn_iff ht hσ hlead hlu, ← image_eq_box_iff hlead.unit hlead.leading hlu]
    subst hnest
    rw [verifyCoverage_iff_realizes rfl hd ht hdim hdepth hpos]
    constructor
    · intro hreal y
      have hq := hreal.mem_tuples (List.ofFn y)
      rw [exists_image_iff ht] at hq
      simpa [Point.toVec_ofFn] using (mem_tuples_permuted hlead.unit).symm.trans hq
    · intro himage
      refine ⟨rfl, rfl, rfl, hd, ht, hdim, hpos, hdef, fun q => ?_⟩
      rw [exists_image_iff ht, ← himage (q.toVec t.dim)]
      exact mem_tuples_permuted hlead.unit
  refine ⟨nest, hnest ▸ hlead.derivePermuted_eq_ok rfl, hcovers, fun e he => ?_⟩
  rcases kind_of_visitLog hpos (verifyCoverage_eq_error.mp he) with hkind | ⟨-, hundef | hzero⟩
  · exact hkind
  · exact absurd hdef hundef
  · -- nothing is divided by zero, since there is an axis or the check passes
    by_cases hdim0 : t.dim = 0
    · have hperm : t.PermutesOn ⟨List.ofFn l, List.ofFn u⟩ := by
        constructor <;> exact fun i hi => by omega
      rw [hcovers.mpr hperm] at he
      cases he
    · rw [hnest] at hzero
      exact absurd hzero (ht.wellFormed hdim0).det_ne_zero

/-- The loop of one row is given or refused by the leading entry alone. -/
theorem permutedLoop_cases (hd : d.WellFormed) (ht : t.Proper) (hdim : d.dim = t.dim) {i : ℕ}
    (hi : i < t.dim) : (t.LeadsWithUnit i ∧ ∃ loop, permutedLoop d t i = .ok loop) ∨
      ¬t.LeadsWithUnit i ∧
        permutedLoop d t i = .error (.derivation (.notSignedUnit (t.leadingEntry i) t)) := by
  obtain ⟨-, hmem, -⟩ := List.find?_range_eq_some.mp (find?_row_eq_leadingAxis ht hi)
  obtain ⟨l, u, rfl, -⟩ := hd.exists_ofFn hdim
  have haxis : t.leadingAxis i < t.dim := List.mem_range.mp hmem
  have hl : (List.ofFn l)[t.leadingAxis i]? = some (l ⟨_, haxis⟩) := by simp [haxis]
  have hu : (List.ofFn u)[t.leadingAxis i]? = some (u ⟨_, haxis⟩) := by simp [haxis]
  rw [permutedLoop, permutedRange, find?_row_eq_leadingAxis ht hi]
  simp only [hl, hu]
  rw [← Transform.leadingEntry]
  by_cases hone : t.leadingEntry i = 1
  · exact Or.inl ⟨Or.inl hone, _, by rw [if_pos hone]; rfl⟩
  · by_cases hneg : t.leadingEntry i = -1
    · exact Or.inl ⟨Or.inr hneg, _, by rw [if_neg hone, if_pos hneg]; rfl⟩
    · exact Or.inr ⟨fun h => h.elim hone hneg, by rw [if_neg hone, if_neg hneg]; rfl⟩

/-- The derivation fails for the first row whose leading entry is no unit. -/
theorem derivePermuted_eq_error_iff (hd : d.WellFormed) (ht : t.Proper) (hdim : d.dim = t.dim)
    {e : Error} : derivePermuted d t = .error e ↔
      ∃ i < t.dim, (∀ k < i, t.LeadsWithUnit k) ∧ ¬t.LeadsWithUnit i ∧
        e = .derivation (.notSignedUnit (t.leadingEntry i) t) := by
  have hok : ∀ k < t.dim, (∃ loop, permutedLoop d t k = .ok loop) ↔ t.LeadsWithUnit k := by
    intro k hk
    rcases permutedLoop_cases hd ht hdim hk with ⟨hunit, hloop⟩ | ⟨hunit, hloop⟩
    · exact iff_of_true hloop hunit
    · exact iff_of_false (by simp [hloop]) hunit
  rw [derivePermuted, Except.bind_eq_error, Except.mapM_range_eq_error]
  constructor
  · rintro (⟨i, hi, hbefore, herr⟩ | ⟨loops, -, hpure⟩)
    · refine ⟨i, hi, fun k hk => (hok k (hk.trans hi)).mp (hbefore k hk), ?_⟩
      rcases permutedLoop_cases hd ht hdim hi with ⟨-, loop, hloop⟩ | ⟨hunit, hloop⟩
      · cases hloop.symm.trans herr
      · cases hloop.symm.trans herr
        exact ⟨hunit, rfl⟩
    · cases hpure
  · rintro ⟨i, hi, hbefore, hunit, rfl⟩
    refine Or.inl ⟨i, hi, fun k hk => (hok k (hk.trans hi)).mpr (hbefore k hk), ?_⟩
    exact ((permutedLoop_cases hd ht hdim hi).resolve_left fun h => hunit h.1).2

theorem leadsWithUnit_of_derivePermuted (hd : d.WellFormed) (ht : t.Proper) (hdim : d.dim = t.dim)
    (h : derivePermuted d t = .ok nest) : ∀ i < t.dim, t.LeadsWithUnit i := by
  intro i
  induction i using Nat.strong_induction_on with
  | _ i ih =>
    intro hi
    by_contra hunit
    rw [(derivePermuted_eq_error_iff hd ht hdim).mpr
      ⟨i, hi, fun k hk => ih k hk (hk.trans hi), hunit, rfl⟩] at h
    cases h

/-- Where every axis has two points, only signed permutations permute the coordinates. -/
theorem isSignedPermutation_of_permutesOn (ht : t.Proper) (hwide : ∀ axis, d.extent? axis ≠ some 1)
    (h : t.PermutesOn d) : t.matrix.IsSignedPermutation := by
  obtain ⟨σ, hσ, hlead⟩ := exists_leads ht h.unit
  have hinj : Function.Injective σ := by
    intro i j hij
    by_contra hne
    refine hwide _ (h.separate i i.2 j j.2 (fun heq => hne (Fin.ext heq)) ?_)
    rw [← hσ, ← hσ, hij]
  have hentry : ∀ i j, t.matrix.entry i j ≠ 0 ↔ ∃ hi : i < t.dim, j = σ ⟨i, hi⟩ := by
    intro i j
    constructor
    · intro hne
      have hin : i < t.dim ∧ j < t.matrix.cols := by_contra fun hout => hne (entry_eq_zero hout)
      refine ⟨hin.1, by_contra fun hj => hne ?_⟩
      rw [hσ] at hj
      exact h.trailing i hin.1 j (hin.2.trans_eq ht.square) hj (hwide j)
    · rintro ⟨hi, rfl⟩
      rw [hlead.leading ⟨i, hi⟩]
      rcases hlead.unit ⟨i, hi⟩ with h | h <;> simp [h]
  refine ⟨ht.square.symm, fun i j hne => ?_, fun i hi => ?_, fun j hj => ?_⟩
  · obtain ⟨hi, rfl⟩ := (hentry i j).mp hne
    rw [hlead.leading ⟨i, hi⟩]
    exact hlead.unit ⟨i, hi⟩
  · refine ⟨σ ⟨i, hi⟩, (hentry i _).mpr ⟨hi, rfl⟩, fun j hj => ?_⟩
    exact ((hentry i j).mp hj).2
  · obtain ⟨i, hi⟩ := Finite.surjective_of_injective hinj ⟨j, hj.trans_eq ht.square⟩
    refine ⟨i, (hentry i j).mpr ⟨i.2, by rw [hi]⟩, fun k hk => ?_⟩
    obtain ⟨hk, hj⟩ := (hentry k j).mp hk
    exact Fin.ext_iff.mp (hinj (Fin.ext (by rw [← hj, hi]) : σ ⟨k, hk⟩ = σ i))

/-- Signed permutations permute the coordinates of every domain. -/
theorem permutesOn_of_isSignedPermutation (hd : d.WellFormed) (ht : t.Proper) (hdim : d.dim = t.dim)
    (h : t.matrix.IsSignedPermutation) : t.PermutesOn d := by
  obtain ⟨nest, hnest, hreal⟩ := exists_derivePermuted hd ht hdim h
  have hunit := leadsWithUnit_of_derivePermuted hd ht hdim hnest
  obtain ⟨nest', hnest', hcovers, -⟩ := verifyCoverage_of_leads hd ht hdim hunit
  cases hnest.symm.trans hnest'
  exact hcovers.mp hreal.verifyCoverage_eq_ok

/-- The permuted derivation, for any transform. It fails, as unsupported, exactly if some row does not
lead with a unit, and names the entry of the first such row. Otherwise its nest covers the domain
exactly if the transform only permutes coordinates there, which signed permutations do on every domain
and nothing else does on a domain with two points on every axis. A nest that does not cover the domain
is returned like any other, and its coverage check reports the mismatch. -/
theorem derivePermuted_exact (hd : d.WellFormed) (ht : t.Proper) (hdim : d.dim = t.dim) :
    (∀ e, derivePermuted d t = .error e ↔ ∃ i < t.dim, (∀ k < i, t.LeadsWithUnit k) ∧
      ¬t.LeadsWithUnit i ∧ e = .derivation (.notSignedUnit (t.leadingEntry i) t)) ∧
    (∀ nest, derivePermuted d t = .ok nest → (nest.verifyCoverage = .ok () ↔ t.PermutesOn d) ∧
      ∀ e, nest.verifyCoverage = .error e → e.derivationKind? = some .boundsMismatch) ∧
    (t.matrix.IsSignedPermutation → t.PermutesOn d) ∧
    ((∀ axis, d.extent? axis ≠ some 1) → t.PermutesOn d → t.matrix.IsSignedPermutation) := by
  refine ⟨fun e => derivePermuted_eq_error_iff hd ht hdim, fun nest hnest => ?_,
    permutesOn_of_isSignedPermutation hd ht hdim, isSignedPermutation_of_permutesOn ht⟩
  have hunit := leadsWithUnit_of_derivePermuted hd ht hdim hnest
  obtain ⟨nest', hnest', hcovers⟩ := verifyCoverage_of_leads hd ht hdim hunit
  cases hnest.symm.trans hnest'
  exact hcovers

/-- A shear of a square is derived, and the nest visits other points than those of the square. A shear
along an axis with a single point is harmless, and a row that leads with 2 is refused. -/
theorem derivePermuted_exact_shears :
    (∃ nest e, derivePermuted ⟨[0, 0], [2, 2]⟩ ⟨⟨2, 2, #v[#v[1, 0], #v[1, 1]]⟩, 1⟩ = .ok nest ∧
      nest.verifyCoverage = .error e ∧ e.derivationKind? = some .boundsMismatch) ∧
    (∃ nest, derivePermuted ⟨[0, 0], [5, 1]⟩ ⟨⟨2, 2, #v[#v[1, 7], #v[0, 1]]⟩, 1⟩ = .ok nest ∧
      nest.verifyCoverage = .ok ()) ∧
    derivePermuted ⟨[0, 0], [2, 2]⟩ ⟨⟨2, 2, #v[#v[-1, 3], #v[0, 2]]⟩, -2⟩ =
      .error (.derivation (.notSignedUnit 2 ⟨⟨2, 2, #v[#v[-1, 3], #v[0, 2]]⟩, -2⟩)) := by
  have hsquare : Domain.WellFormed ⟨[0, 0], [2, 2]⟩ := .cons (by decide) (.cons (by decide) .nil)
  have hmade : ∀ m t, Transform.ofMatrix m = .ok t → t.Proper := fun m t h =>
    (Transform.ofMatrix_wellFormed h).proper
  refine ⟨?_, ?_, ?_⟩
  · obtain ⟨-, hcovers, -, -⟩ := derivePermuted_exact hsquare
      (hmade ⟨2, 2, #v[#v[1, 0], #v[1, 1]]⟩ ⟨⟨2, 2, #v[#v[1, 0], #v[1, 1]]⟩, 1⟩ (by decide)) rfl
    obtain ⟨hiff, hkind⟩ := hcovers _ rfl
    cases hcheck : verifyCoverage _ with
    | ok => exact absurd ((hiff.mp hcheck).trailing 1 (by decide) 1 (by decide)) (by decide)
    | error e => exact ⟨_, e, rfl, hcheck, hkind e hcheck⟩
  · obtain ⟨-, hcovers, -, -⟩ := derivePermuted_exact (d := ⟨[0, 0], [5, 1]⟩)
      (.cons (by decide) (.cons (by decide) .nil))
      (hmade ⟨2, 2, #v[#v[1, 7], #v[0, 1]]⟩ ⟨⟨2, 2, #v[#v[1, 7], #v[0, 1]]⟩, 1⟩ (by decide)) rfl
    exact ⟨_, rfl, (hcovers _ rfl).1.mpr ⟨by decide, by decide, by decide, by decide⟩⟩
  · obtain ⟨herror, -⟩ := derivePermuted_exact hsquare
      (hmade ⟨2, 2, #v[#v[-1, 3], #v[0, 2]]⟩ ⟨⟨2, 2, #v[#v[-1, 3], #v[0, 2]]⟩, -2⟩ (by decide)) rfl
    exact (herror _).mpr ⟨1, by decide, by decide, by decide, rfl⟩

/-- Not every nest of the permuted derivation covers its domain. -/
theorem not_derivePermuted_covers :
    ¬∀ (d : Domain) (t : Transform), d.WellFormed → t.Constructed → d.dim = t.dim →
      (∃ e, derivePermuted d t = .error e ∧ e.derivationKind? = some .unsupportedTransform) ∨
        ∃ nest, derivePermuted d t = .ok nest ∧ nest.verifyCoverage = .ok () := by
  intro h
  have hshear : Transform.Constructed ⟨⟨2, 2, #v[#v[1, 0], #v[1, 1]]⟩, 1⟩ :=
    .ofMatrix (m := ⟨2, 2, #v[#v[1, 0], #v[1, 1]]⟩) (by decide)
  obtain ⟨nest, hnest⟩ : ∃ nest, derivePermuted ⟨[0, 0], [2, 2]⟩ ⟨⟨2, 2, #v[#v[1, 0], #v[1, 1]]⟩, 1⟩ =
      .ok nest := ⟨_, rfl⟩
  rcases h ⟨[0, 0], [2, 2]⟩ _ (.cons (by decide) (.cons (by decide) .nil)) hshear rfl with
    ⟨e, he, -⟩ | ⟨nest', hnest', hcovers⟩
  · cases hnest.symm.trans he
  · cases hnest.symm.trans hnest'
    cases hnest
    revert hcovers
    decide

end Nest

end AffineLoops
