import AffineLoops.Case.Catalog
import AffineLoops.Proofs.Case.Sound
import AffineLoops.Proofs.Case.Subsequence
/-!
# Sweeps of the catalog

Every case of the catalog is sound, whatever the parameters are. Cases are only checked for what they
read; that they do not write outside the array follows since most of them read the upper and the left
neighbour, whose coordinates are together those of the cell itself. Seven of the nine transforms are
fixed and respect the dependences, the other two are parameters.

## Main definitions

- `CatalogConfig.arrayCase_catalogued` — the cases over the square array
- `CatalogConfig.cases_catalogued` — all cases, by their names
- `CatalogConfig.sweep_cases` — the report of a sweep
-/

namespace AffineLoops

/-- A cell whose upper and left neighbours are in an array is in it. -/
theorem Domain.contains_of_neighbours {a₁ a₂ b₁ b₂ : ℤ} {p : Point} (hlen : p.length = 2)
    (hup : contains ⟨[a₁, a₂], [b₁, b₂]⟩ (p.shift [-1, 0]))
    (hleft : contains ⟨[a₁, a₂], [b₁, b₂]⟩ (p.shift [0, -1])) :
    contains ⟨[a₁, a₂], [b₁, b₂]⟩ p := by
  obtain ⟨x, y, rfl⟩ := List.length_eq_two.mp hlen
  rw [contains_planar] at hup hleft ⊢
  obtain ⟨x₁, y₁, h₁, -, hy⟩ := hup
  obtain ⟨x₂, y₂, h₂, hx, -⟩ := hleft
  simp only [Point.shift, List.zipWith_cons_cons, List.zipWith_nil_left, List.cons.injEq] at h₁ h₂
  exact ⟨x, y, rfl, by omega, by omega⟩

/-- The specification is sound, and its transform respects the dependences unless it is one of the two
that are parameters. -/
structure CaseSpec.Catalogued (spec : CaseSpec) (name : String) : Prop where
  sound : spec.Sound
  name_eq : spec.name = name
  respected : name ≠ "sheared_tile" → name ≠ "general" →
    spec.dependences.isRespectedBy spec.transform

/-- The same of a case. -/
structure Case.Catalogued (c : Case) (name : String) : Prop where
  sound : ∃ d, c.Sound d c.transformed.transform
  name_eq : c.name = name
  respected : name ≠ "sheared_tile" → name ≠ "general" →
    c.dependences.isRespectedBy c.transformed.transform

theorem CaseSpec.Catalogued.of_build {spec : CaseSpec} {c : Case} {name : String}
    (h : spec.Catalogued name) (hc : Case.build spec = .ok c) : c.Catalogued name := by
  have hsound := h.sound.of_build hc
  have htransform := hsound.realizes.transform
  obtain ⟨-, -, -, nest, -, rfl⟩ := Case.build_eq_ok_iff.mp hc
  rw [← htransform] at hsound
  refine ⟨⟨_, hsound⟩, h.name_eq, ?_⟩
  rw [htransform]
  exact h.respected

namespace CatalogConfig

variable {config : CatalogConfig} {name : String} {domain : Domain} {t : Transform}
  {offsets : List Point} {rule : UpdateRule} {spec : CaseSpec}

/-- The rule has no auxiliary grid, and carries the dependences with these offsets. -/
structure Carries (rule : UpdateRule) (offsets : List Point) : Prop where
  declared : DependencePattern.ofOffsets 2 offsets = .ok ⟨2, offsets⟩
  dependences : rule.dependencePattern 2 = .ok ⟨2, offsets⟩
  auxReads : rule.expr.auxReads = []

theorem stencilRule_carries : Carries stencilRule stencilOffsets :=
  ⟨by decide, by decide +kernel, by decide⟩

theorem interchange_carries :
    Carries (.stencil "interchange" [[0, -1], [0, -2]]) [[0, -1], [0, -2]] :=
  ⟨by decide, by decide +kernel, by decide⟩

theorem diagonal_carries (name : String) :
    Carries (.stencil name [[-1, 0], [0, -1], [1, -1]]) [[-1, 0], [0, -1], [-1, 1]] := by
  refine ⟨by decide, ?_, rfl⟩
  show (UpdateRule.stencil "" [[-1, 0], [0, -1], [1, -1]]).dependencePattern 2 = _
  decide +kernel

theorem arrayCase_eq_ok_iff (hdeclared : DependencePattern.ofOffsets 2 offsets = .ok ⟨2, offsets⟩) :
    config.arrayCase name domain t offsets rule = .ok spec ↔ 0 < config.size ∧
      { name := name, domain := domain, arrayShape := ⟨[0, 0], [config.size, config.size]⟩,
        transform := t, dependences := ⟨2, offsets⟩, rule := rule : CaseSpec } = spec := by
  have hcube : ∀ shape, Domain.cube 2 config.size = .ok shape ↔
      0 < config.size ∧ ⟨[0, 0], [config.size, config.size]⟩ = shape := fun shape => by
    rw [← and_self_iff (a := 0 < config.size)]
    exact Domain.rect_eq_ok_iff
  simp only [arrayCase, Except.bind_eq_ok, Except.liftM_domain_eq_ok, Except.liftM_derivation_eq_ok,
    hcube, hdeclared]
  constructor
  · rintro ⟨_, ⟨hsize, rfl⟩, _, hdeps, h⟩
    cases hdeps
    cases h
    exact ⟨hsize, rfl⟩
  · rintro ⟨hsize, rfl⟩
    exact ⟨_, ⟨hsize, rfl⟩, _, rfl, rfl⟩

/-- A case over the square array does not write outside it, if it reads the upper and the left
neighbour or if its domain lies in the array. -/
theorem arrayCase_catalogued (h : config.arrayCase name domain t offsets rule = .ok spec)
    (hrule : Carries rule offsets) (hdomain : domain.WellFormed) (hdim : domain.dim = 2)
    (ht : t.Proper)
    (hwrite : ([-1, 0] ∈ rule.reads ∧ [0, -1] ∈ rule.reads) ∨
      ∀ p, domain.contains p → Domain.contains ⟨[0, 0], [config.size, config.size]⟩ p)
    (hresp : name ≠ "sheared_tile" → name ≠ "general" →
      (DependencePattern.mk 2 offsets).isRespectedBy t) :
    spec.Catalogued name := by
  obtain ⟨hsize, rfl⟩ := (arrayCase_eq_ok_iff hrule.declared).mp h
  refine ⟨⟨hdomain, .cons hsize (.cons hsize .nil), ht, ?_, ⟨offsets, ?_⟩, ?_, ?_⟩, rfl, hresp⟩
  · rw [hdim]
    exact hrule.dependences
  · rw [hdim]
    exact hrule.declared
  · intro hreads p hp
    rcases hwrite with ⟨hup, hleft⟩ | hinside
    · exact Domain.contains_of_neighbours ((Domain.length_of_contains hp).trans hdim)
        (hreads _ hup p hp) (hreads _ hleft p hp)
    · exact hinside p hp
  · intro p _ o ho
    rw [hrule.auxReads] at ho
    cases ho

theorem lcsTable_catalogued {left right : String} (hleft : left ≠ "") (hright : right ≠ "") :
    (CaseSpec.lcsTable left right).Catalogued "lcs" where
  sound := {
    domain := .cons (CaseSpec.length_pos_iff.mpr hleft)
      (.cons (CaseSpec.length_pos_iff.mpr hright) .nil)
    arrayShape := CaseSpec.lcsTable_arrayShape_wellFormed
    transform := (Transform.skew_wellFormed 2 0 1 1).proper
    dependences := by
      show UpdateRule.lcs.dependencePattern 2 = .ok ⟨2, [[-1, 0], [0, -1], [-1, -1]]⟩
      decide +kernel
    declared := ⟨[[-1, 0], [0, -1], [-1, -1]], by
      show DependencePattern.ofOffsets 2 _ = .ok ⟨2, [[-1, 0], [0, -1], [-1, -1]]⟩
      decide⟩
    write := fun _ p hp => (CaseSpec.lcsTable_safe hp).write
    auxReads := fun p hp => (CaseSpec.lcsTable_safe hp).read.auxReads }
  name_eq := rfl
  respected := fun _ _ => by
    show (DependencePattern.mk 2 [[-1, 0], [0, -1], [-1, -1]]).isRespectedBy (.skew 2 0 1 1)
    decide

/-- The names of the cases, in the order of the catalog. -/
def caseNames : List String :=
  ["identity", "interchange", "wavefront", "sub_tile", "skew", "sheared_tile", "sheared_lattice",
    "general", "lcs"]

theorem specs_catalogued {specs : List CaseSpec} (h : config.specs = .ok specs) :
    List.Forall₂ CaseSpec.Catalogued specs caseNames := by
  simp only [CatalogConfig.specs, Except.bind_eq_ok, Except.liftM_domain_eq_ok,
    Except.liftM_fault_eq_ok, Except.liftM_matrix_eq_ok, Domain.rect_eq_ok_iff,
    CaseSpec.lcs_eq_ok_iff] at h
  obtain ⟨tile, htile, wavefront, hwavefront, _, ⟨⟨hsize, -⟩, rfl⟩, identity, hidentity,
    _, ⟨⟨hrows, hcols⟩, rfl⟩, exchange, hexchange, interchange, hinterchange, _, ⟨-, rfl⟩, wave, hwave,
    subTile, hsubTile, half, hhalf, skew, hskew, shear, hshear, shearedTile, hshearedTile,
    stretch, hstretch, shearedLattice, hshearedLattice, matrix, hmatrix, general, hgeneral,
    _, ⟨⟨hleft, hright⟩, rfl⟩, h⟩ := h
  cases h
  cases hwavefront
  have hneighbours : [-1, 0] ∈ stencilRule.reads ∧ [0, -1] ∈ stencilRule.reads := by decide
  have hsquare : Domain.WellFormed ⟨[1, 1], [config.size, config.size]⟩ :=
    .cons hsize (.cons hsize .nil)
  obtain ⟨⟨hrowsTile, hcolsTile⟩, rfl⟩ := Domain.rect_eq_ok_iff.mp htile
  have htile : Domain.WellFormed ⟨[config.tile.a₁, config.tile.a₂], [config.tile.b₁, config.tile.b₂]⟩ :=
    .cons hrowsTile (.cons hcolsTile .nil)
  refine .cons ?_ <| .cons ?_ <| .cons ?_ <| .cons ?_ <| .cons ?_ <| .cons ?_ <| .cons ?_ <|
    .cons ?_ <| .cons ?_ .nil
  · exact arrayCase_catalogued hidentity stencilRule_carries hsquare rfl
      (Transform.identity_wellFormed 2).proper (Or.inl hneighbours) fun _ _ => by decide
  · refine arrayCase_catalogued hinterchange interchange_carries (.cons hrows (.cons hcols .nil)) rfl
      (Transform.interchange_proper hexchange) (Or.inr fun p hp => ?_) fun _ _ => ?_
    -- the rule does not read the upper neighbour, but no iteration is outside the array
    · rw [Domain.contains_planar] at hp ⊢
      obtain ⟨x, y, rfl, hx, hy⟩ := hp
      exact ⟨x, y, rfl, hx, by omega, hy.2⟩
    · cases hexchange
      decide
  · exact arrayCase_catalogued hwave stencilRule_carries hsquare rfl
      (Transform.skew_wellFormed 2 0 1 1).proper (Or.inl hneighbours) fun _ _ => by decide
  · exact arrayCase_catalogued hsubTile stencilRule_carries htile rfl
      (Transform.skew_wellFormed 2 0 1 1).proper (Or.inl hneighbours) fun _ _ => by decide
  · refine arrayCase_catalogued hskew (diagonal_carries "skew") htile rfl
      (Transform.ofRows_wellFormed hhalf).proper (Or.inl (by decide)) fun _ _ => ?_
    cases hhalf
    decide
  · have hrows : Transform.ofRows [[1, config.shearR], [0, config.shearT]] = .ok shear :=
      Except.liftM_matrix_eq_ok.mp hshear
    exact arrayCase_catalogued hshearedTile stencilRule_carries htile rfl
      (Transform.ofRows_wellFormed hrows).proper (Or.inl hneighbours) fun h => absurd rfl h
  · refine arrayCase_catalogued hshearedLattice stencilRule_carries htile rfl
      (Transform.ofRows_wellFormed hstretch).proper (Or.inl hneighbours) fun _ _ => ?_
    cases hstretch
    decide
  · exact arrayCase_catalogued hgeneral (diagonal_carries "general") htile rfl
      (Transform.ofRows_wellFormed hmatrix).proper (Or.inl (by decide)) fun _ h => absurd rfl h
  · exact lcsTable_catalogued hleft hright

theorem cases_catalogued {cases : List Case} (h : config.cases = .ok cases) :
    List.Forall₂ Case.Catalogued cases caseNames := by
  obtain ⟨specs, hspecs, hmap⟩ := Except.bind_eq_ok.mp h
  have hcatalogued := specs_catalogued hspecs
  have hbuilt := Except.mapM_eq_ok.mp hmap
  clear h hspecs hmap
  generalize caseNames = names at hcatalogued ⊢
  induction hcatalogued generalizing cases with
  | nil =>
    cases hbuilt
    exact .nil
  | cons hspec _ ih =>
    cases hbuilt with
    | cons hc hrest => exact .cons (hspec.of_build hc) (ih hrest)

theorem catalogued_of_mem {cases : List Case} (h : config.cases = .ok cases) {c : Case}
    (hc : c ∈ cases) : c.Catalogued c.name := by
  have hcases := cases_catalogued h
  obtain ⟨i, hi, rfl⟩ := List.getElem_of_mem hc
  have hname := hcases.get hi (hcases.length_eq ▸ hi)
  exact hname.name_eq ▸ hname

theorem map_name_cases {cases : List Case} (h : config.cases = .ok cases) :
    cases.map Case.name = caseNames :=
  List.forall₂_eq_eq_eq ▸ List.forall₂_map_left_iff.mpr
    ((cases_catalogued h).imp fun _ _ hc => hc.name_eq)

/-- The catalog can be swept under every plan. Only the sheared tile and the general lattice can
differ from the reference, and only if their transforms do not respect the dependences. -/
theorem sweep_cases {cases : List Case} {plan : ExecutionPlan} (hcases : config.cases = .ok cases)
    (hmax : 0 ≤ plan.maximum) :
    cases.map Case.name = caseNames ∧
      (∃ report, sweep cases plan = .ok report ∧ ∀ m ∈ report.mismatches, ∃ c ∈ cases,
        (c.name = "sheared_tile" ∨ c.name = "general") ∧
          ¬c.dependences.isRespectedBy c.transformed.transform ∧
            m.name = c.name ∧ ∃ k < plan.seeds, plan.checkSeed c k = .ok (.mismatch m)) ∧
      ∀ c ∈ cases, c.transformed.verifyCoverage = .ok () ∧ ∀ k, ∃ v, plan.checkSeed c k = .ok v ∧
        (c.name ≠ "sheared_tile" → c.name ≠ "general" → v = .pass) := by
  have hmax : ¬plan.maximum < 0 := Int64.not_lt.mpr hmax
  have hcomplete : ∀ c ∈ cases, plan.Completes c := fun c hc => by
    obtain ⟨d, hsound⟩ := (catalogued_of_mem hcases hc).sound
    exact hsound.completes hmax
  refine ⟨map_name_cases hcases, ⟨_, sweep_eq_ok hmax hcomplete, fun m hm => ?_⟩, fun c hc => ?_⟩
  · obtain ⟨c, hc, k, hk, hcheck⟩ := exists_of_mem_mismatches hcomplete hm
    have hcatalogued := catalogued_of_mem hcases hc
    obtain ⟨d, hsound⟩ := hcatalogued.sound
    obtain ⟨v, hv, hname, hpass⟩ := hsound.exists_checkSeed hmax k
    cases hcheck.symm.trans hv
    have hresp : ¬c.dependences.isRespectedBy c.transformed.transform := fun hresp => by
      cases hpass hresp
    refine ⟨c, hc, ?_, hresp, hname m rfl, k, hk, hcheck⟩
    by_contra hother
    rw [not_or] at hother
    exact hresp (hcatalogued.respected hother.1 hother.2)
  · have hcatalogued := catalogued_of_mem hcases hc
    obtain ⟨d, hsound⟩ := hcatalogued.sound
    refine ⟨hsound.realizes.verifyCoverage_eq_ok, fun k => ?_⟩
    obtain ⟨v, hv, -, hpass⟩ := hsound.exists_checkSeed hmax k
    exact ⟨v, hv, fun htile hgeneral => hpass (hcatalogued.respected htile hgeneral)⟩

/-- No run of the default catalog differs from the reference. -/
theorem sweep_cases_default : ∃ cases report, CatalogConfig.cases {} = .ok cases ∧
    sweep cases {} = .ok report ∧ report.mismatches = [] := by
  have hresp : (CatalogConfig.cases {}).toOption.any fun cases =>
      cases.all fun c => c.dependences.isRespectedBy c.transformed.transform := by
    decide +kernel
  obtain ⟨cases, hcases⟩ : ∃ cases, CatalogConfig.cases {} = .ok cases := by
    cases hcases : CatalogConfig.cases {} with
    | ok cases => exact ⟨cases, rfl⟩
    | error e =>
      rw [hcases] at hresp
      cases hresp
  rw [hcases] at hresp
  have hmax : 0 ≤ ({} : ExecutionPlan).maximum := by decide
  obtain ⟨-, ⟨report, hreport, hmismatches⟩, -⟩ := sweep_cases hcases hmax
  refine ⟨cases, report, hcases, hreport, List.eq_nil_iff_forall_not_mem.mpr fun m hm => ?_⟩
  obtain ⟨c, hc, -, hnot, -⟩ := hmismatches m hm
  exact hnot (List.all_eq_true.mp hresp c hc)

end CatalogConfig

end AffineLoops
