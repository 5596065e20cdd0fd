import AffineLoops.Derivation.Permuted
import AffineLoops.Proofs.Derivation.Planar
import AffineLoops.Proofs.Nest.Reference
import AffineLoops.Proofs.Transform.Permutation
/-!
# Exactness of permuted nests

The image of a box under a signed permutation is a box, and the loops of the permuted nest are those
of the reference nest over this box. In the plane the general derivation applies as well, and visits
the same points in the same order.

## Main definitions

- `Domain.permuted` — the image of a box
- `Nest.Leads`, `Nest.Leads.derivePermuted_eq_ok` — the loops are those of the image
- `Nest.derivePermuted_identity` — the nest of the identity
- `Nest.exists_derivePermuted` — the derived nest realizes the transform
- `Nest.derivePermuted_enumerates` — what it visits, and the agreement in the plane
-/

namespace AffineLoops

variable {n : ℕ} {σ : Fin n → Fin n} {s l u : Fin n → ℤ}

/-- The box whose axis `i` is the axis `σ i` of another box, turned around unless its sign is 1. -/
def Domain.permuted (σ : Fin n → Fin n) (s l u : Fin n → ℤ) : Domain where
  lower := List.ofFn fun i => if s i = 1 then l (σ i) else -(u (σ i) - 1)
  upper := List.ofFn fun i => if s i = 1 then u (σ i) else -l (σ i) + 1

theorem sq_of_unit (hs : ∀ i, s i = 1 ∨ s i = -1) (i : Fin n) : s i * s i = 1 := by
  rcases hs i with h | h <;> simp [h]

/-- A coordinate is in the range of its axis when its multiple with the sign is. -/
theorem mem_permuted_range {a b x y : ℤ} (hs : x = 1 ∨ x = -1) :
    (if x = 1 then a else -(b - 1)) ≤ x * y ∧ x * y < (if x = 1 then b else -a + 1) ↔
      a ≤ y ∧ y < b := by
  rcases hs with rfl | rfl
  · simp
  · rw [if_neg (by decide), if_neg (by decide)]
    omega

namespace Nest

variable {d : Domain} {t : Transform}

/-- The first nonzero entry of every row `i` is the unit `s i` in the column `σ i`. -/
structure Leads (t : Transform) (σ : Fin n → Fin n) (s : Fin n → ℤ) : Prop where
  unit : ∀ i, s i = 1 ∨ s i = -1
  leading : ∀ i : Fin n, t.matrix.entry i (σ i) = s i
  before : ∀ i j : Fin n, j < σ i → t.matrix.entry i j = 0

theorem leads_of_perm (hs : ∀ i, s i = 1 ∨ s i = -1)
    (hentry : ∀ i j : Fin n, t.matrix.entry i j = if j = σ i then s i else 0) : Leads t σ s :=
  ⟨hs, fun i => by rw [hentry, if_pos rfl], fun i j hj => by rw [hentry, if_neg hj.ne]⟩

theorem Leads.find?_row (h : Leads t σ s) (hn : t.dim = n) (i : Fin n) :
    (List.range t.dim).find? (t.matrix.entry i · ≠ 0) = some (σ i : ℕ) := by
  have hne : s i ≠ 0 := by
    rcases h.unit i with h | h <;> simp [h]
  rw [hn, List.find?_range_eq_some]
  refine ⟨by simpa [h.leading] using hne, by simp, fun j hj => ?_⟩
  have hother := h.before i ⟨j, hj.trans (σ i).2⟩ hj
  simpa using hother

/-- The loop of a row is the loop of the reference nest over the axis of its first entry. -/
theorem Leads.permutedLoop_eq_ok (h : Leads t σ s) (hn : t.dim = n) (i : Fin n) :
    permutedLoop ⟨List.ofFn l, List.ofFn u⟩ t i = .ok (referenceLoop i
      (if s i = 1 then l (σ i) else -(u (σ i) - 1)) (if s i = 1 then u (σ i) else -l (σ i) + 1)) := by
  have hl : (List.ofFn l)[(σ i : ℕ)]? = some (l (σ i)) := by simp
  have hu : (List.ofFn u)[(σ i : ℕ)]? = some (u (σ i)) := by simp
  rw [permutedLoop, permutedRange, h.find?_row hn]
  simp only [hl, hu, h.leading, referenceLoop]
  rcases h.unit i with h | h
  · rw [if_pos h, if_pos h, if_pos h]
    rfl
  · have hneg : s i ≠ 1 := by simp [h]
    rw [if_neg hneg, if_neg hneg, if_neg hneg, if_pos h, Int.add_sub_cancel]
    rfl

/-- The loops are those of a box, whatever stands behind the first entries. -/
theorem Leads.derivePermuted_eq_ok (h : Leads t σ s) (hn : t.dim = n) :
    derivePermuted ⟨List.ofFn l, List.ofFn u⟩ t = .ok ⟨⟨List.ofFn l, List.ofFn u⟩, t,
      (reference (.permuted σ s l u)).loops, t.inverse, none⟩ := by
  refine Except.bind_eq_ok.mpr ⟨_, Except.mapM_eq_ok.mpr (List.forall₂_iff_get.mpr ⟨?_, ?_⟩), rfl⟩
  · simp [reference, Domain.permuted, hn]
  · intro i hi hi'
    have hin : i < n := by simpa [hn] using hi
    simpa [reference, Domain.permuted] using h.permutedLoop_eq_ok hn ⟨i, hin⟩

/-- The identity takes every axis to itself, as it is. -/
theorem permuted_identity (l u : Fin n → ℤ) :
    Domain.permuted id (fun _ => 1) l u = ⟨List.ofFn l, List.ofFn u⟩ := by
  simp [Domain.permuted]

/-- The loops of the identity are those of the reference nest, and so is the inverse map. -/
theorem derivePermuted_identity (hd : d.WellFormed) :
    derivePermuted d (.identity d.dim) = .ok (reference d) := by
  obtain ⟨n, hn⟩ : ∃ n, d.dim = n := ⟨_, rfl⟩
  obtain ⟨l, u, rfl, -⟩ := hd.exists_ofFn hn
  have hentry : ∀ i j : Fin n, (Transform.identity n).matrix.entry i j = if j = id i then 1 else 0 := by
    intro i j
    rw [Transform.identity, IntMatrix.entry_identity i.2 j.2]
    simp [Fin.ext_iff, eq_comm]
  rw [hn, (leads_of_perm (fun _ => Or.inl rfl) hentry).derivePermuted_eq_ok rfl,
    permuted_identity, Transform.inverse_identity, reference, hn]

/-- The image of a box under a signed permutation is a box. -/
theorem mem_permuted {σ : Equiv.Perm (Fin n)} (ht : t.Proper) (hn : t.dim = n)
    (hs : ∀ i, s i = 1 ∨ s i = -1)
    (hentry : ∀ i j : Fin n, t.matrix.entry i j = if j = σ i then s i else 0) {q : Point} :
    (Domain.permuted σ s l u).contains q ↔
      ∃ p, Domain.contains ⟨List.ofFn l, List.ofFn u⟩ p ∧ t.apply p = q := by
  subst hn
  have hsq := sq_of_unit hs
  have himage : ∀ p : Point, p.length = t.dim → ∀ i : Fin t.dim,
      (t.apply p).getD i 0 = s i * p.getD (σ i) 0 := fun p hp i =>
    Transform.toVec_apply_of_perm ht hp hentry i
  rw [Domain.permuted, Domain.contains_ofFn]
  simp only [Domain.contains_ofFn]
  constructor
  · rintro ⟨hlen, hrange⟩
    -- the coordinate on an axis is read off the row that takes it up
    obtain ⟨p, hp⟩ : ∃ p : Point, p = List.ofFn fun j => s (σ.symm j) * q.getD (σ.symm j) 0 :=
      ⟨_, rfl⟩
    have hlen' : p.length = t.dim := by rw [hp, List.length_ofFn]
    have hcoord : ∀ i, p.getD (σ i) 0 = s i * q.getD i 0 := by
      intro i
      simp [hp, List.getD_eq_getElem?_getD]
    have happly : t.apply p = q := by
      rw [← Point.ofFn_toVec (ht.length_apply hlen'), ← Point.ofFn_toVec hlen, List.ofFn_inj]
      funext i
      rw [Point.toVec_apply, himage p hlen', hcoord, ← mul_assoc, hsq, one_mul, Point.toVec_apply]
    refine ⟨p, ⟨hlen', fun j => ?_⟩, happly⟩
    have hj := hrange (σ.symm j)
    rw [← happly, himage p hlen', mem_permuted_range (hs _), Equiv.apply_symm_apply] at hj
    exact hj
  · rintro ⟨p, ⟨hlen, hrange⟩, rfl⟩
    refine ⟨ht.length_apply hlen, fun i => ?_⟩
    rw [himage p hlen, mem_permuted_range (hs i)]
    exact hrange (σ i)

theorem exists_derivePermuted (hd : d.WellFormed) (ht : t.Proper) (hdim : d.dim = t.dim)
    (hperm : t.matrix.IsSignedPermutation) :
    ∃ nest, derivePermuted d t = .ok nest ∧ nest.Realizes d t := by
  obtain ⟨σ, s, hs, hentry⟩ := hperm.exists_perm (n := t.dim) rfl
  obtain ⟨l, u, rfl, -⟩ := hd.exists_ofFn hdim
  refine ⟨_, (leads_of_perm hs hentry).derivePermuted_eq_ok rfl, rfl, rfl, rfl, hd, ht, hdim,
    reference_forward _, reference_defined _, fun q => ?_⟩
  rw [← mem_permuted ht rfl hs hentry, ← mem_tuples_reference (by simp [Domain.permuted])]
  rfl

/-- The derivation of a signed permutation succeeds in every dimension. Its nest goes through the
images of the points of the domain in lexicographic order, each of them once and nothing else, and
through these points behind them. In the plane the general derivation succeeds as well, and its nest
visits the same tuples and the same iterations in the same order. -/
theorem derivePermuted_enumerates (hd : d.WellFormed) (ht : t.Proper) (hdim : d.dim = t.dim)
    (hperm : t.matrix.IsSignedPermutation) :
    ∃ nest ps, derivePermuted d t = .ok nest ∧ nest.Forward ∧ nest.Enumerates d t ps ∧
      (t.dim = 2 → ∃ nest', derivePlanar d t = .ok nest' ∧
        nest'.transformedPoints = nest.transformedPoints ∧
          nest'.iterationPoints = nest.iterationPoints) := by
  obtain ⟨nest, hnest, hreal⟩ := exists_derivePermuted hd ht hdim hperm
  refine ⟨nest, _, hnest, hreal.forward, hreal.enumerates, fun htwo => ?_⟩
  obtain ⟨nest', hnest', hreal'⟩ :=
    exists_derivePlanar hd (hdim.trans htwo) (ht.wellFormed (by omega)) htwo
  have hsame := hreal'.enumerates.unique hreal.enumerates
  refine ⟨nest', hnest', ?_, ?_⟩
  · rw [hreal'.enumerates.transformedPoints, hreal.enumerates.transformedPoints, hsame]
  · rw [hreal'.enumerates.iterationPoints, hreal.enumerates.iterationPoints, hsame]

/-- A rotation of three axes that turns one of them, and a quarter turn of the plane. -/
theorem derivePermuted_rotations :
    (∃ nest ps, derivePermuted ⟨[0, -1, 2], [2, 2, 4]⟩
        ⟨⟨3, 3, #v[#v[0, 0, -1], #v[1, 0, 0], #v[0, 1, 0]]⟩, -1⟩ = .ok nest ∧
      nest.Enumerates ⟨[0, -1, 2], [2, 2, 4]⟩
        ⟨⟨3, 3, #v[#v[0, 0, -1], #v[1, 0, 0], #v[0, 1, 0]]⟩, -1⟩ ps) ∧
    ∃ nest nest', derivePermuted ⟨[0, -1], [3, 1]⟩ ⟨⟨2, 2, #v[#v[0, -1], #v[1, 0]]⟩, 1⟩ = .ok nest ∧
      derivePlanar ⟨[0, -1], [3, 1]⟩ ⟨⟨2, 2, #v[#v[0, -1], #v[1, 0]]⟩, 1⟩ = .ok nest' ∧
        nest'.iterationPoints = nest.iterationPoints := by
  have hspatial : Transform.Constructed ⟨⟨3, 3, #v[#v[0, 0, -1], #v[1, 0, 0], #v[0, 1, 0]]⟩, -1⟩ :=
    .ofMatrix (m := ⟨3, 3, #v[#v[0, 0, -1], #v[1, 0, 0], #v[0, 1, 0]]⟩) (by decide +kernel)
  have hplanar : Transform.Constructed ⟨⟨2, 2, #v[#v[0, -1], #v[1, 0]]⟩, 1⟩ :=
    .ofMatrix (m := ⟨2, 2, #v[#v[0, -1], #v[1, 0]]⟩) (by decide)
  constructor
  · obtain ⟨nest, ps, hnest, -, henum, -⟩ := derivePermuted_enumerates (d := ⟨[0, -1, 2], [2, 2, 4]⟩)
      (.cons (by decide) (.cons (by decide) (.cons (by decide) .nil))) hspatial.wellFormed.proper rfl
      (IntMatrix.isSignedPermutation_iff.mp (by decide))
    exact ⟨nest, ps, hnest, henum⟩
  · obtain ⟨nest, ps, hnest, -, -, hagree⟩ := derivePermuted_enumerates (d := ⟨[0, -1], [3, 1]⟩)
      (.cons (by decide) (.cons (by decide) .nil)) hplanar.wellFormed.proper rfl
      (IntMatrix.isSignedPermutation_iff.mp (by decide))
    obtain ⟨nest', hnest', -, hsame⟩ := hagree rfl
    exact ⟨nest, nest', hnest, hnest', hsame⟩

end Nest

end AffineLoops
