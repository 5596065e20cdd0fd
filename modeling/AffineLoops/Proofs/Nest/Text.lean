import AffineLoops.Derivation.General
import AffineLoops.Proofs.CText.Linear
import AffineLoops.Proofs.Derivation.General
/-!
# The text of a nest

A program for a case contains the bounds of a nest and the coordinates of its iterations as written.
Read as C, a written bound has the value of the bound wherever its divisors and moduli are positive,
and a written coordinate has the value that the inverse map gives. The bounds of a derived nest are of
this kind.

## Main definitions

- `Bound.Printable` — bounds with positive divisors and moduli and without empty maxima and minima
- `Bound.Printable.denotes` — the value of a written bound
- `InverseMap.denotes_formula` — the value of a written coordinate
- `Nest.printable_of_derive` — what is written of a derived nest
-/

namespace AffineLoops

open CText

variable {env : Env} {names : List String} {values : Point}

/-! ### Bounds -/

theorem AffineForm.function_isName (a : AffineForm) : IsName a.function := by
  unfold function
  split
  · exact ⟨by decide, by decide, by decide⟩
  · exact ⟨by decide, by decide, by decide⟩

theorem AffineForm.helperCalls_function (a : AffineForm) (n : ℤ) {d : ℤ} (hd : 0 < d) :
    helperCalls a.function n d = some (a.rounding.quotient n d) := by
  unfold function
  split
  · next h => rw [h, helperCalls_floord hd]
  · next h => rw [h, helperCalls_ceild hd]

theorem AffineForm.denotes (h : Names env names values) (a : AffineForm) (ha : 0 < a.divisor) :
    Denotes env 3 (a.render names) (a.eval values) := by
  have hnumerator := h.denotes_linear a.coeffs a.constant
  unfold render eval
  dsimp only
  split
  · next hone => rwa [hone, Rounding.quotient_one]
  · have hdivisor : Denotes env 5 (toString a.divisor) a.divisor := denotes_int a.divisor
    exact (Denotes.call a.function_isName (hnumerator.mono (by decide)) (hdivisor.mono (by decide))
      (a.helperCalls_function _ ha)).mono (by decide)

namespace Bound

/-- Divisors and moduli are positive, and every maximum or minimum has an operand. -/
inductive Printable : Bound → Prop
  | const (value : ℤ) : Printable (.const value)
  | affine {form : AffineForm} (h : 0 < form.divisor) : Printable (.affine form)
  | max {bs : List Bound} (hne : bs ≠ []) (h : ∀ b ∈ bs, Printable b) : Printable (.max bs)
  | min {bs : List Bound} (hne : bs ≠ []) (h : ∀ b ∈ bs, Printable b) : Printable (.min bs)
  | aligned {base : Bound} {target : AffineForm} {modulus : ℤ} (hbase : Printable base)
    (htarget : 0 < target.divisor) (hmodulus : 0 < modulus) :
    Printable (.aligned base target modulus)

/-- The nested calls of a function of two arguments choose among the values of all operands, if the
function chooses among two. -/
theorem denotes_renderNested {function : String} {op : ℤ → ℤ → ℤ} (best : List ℤ → Option ℤ)
    (hname : IsName function) (hcall : ∀ a b, helperCalls function a b = some (op a b))
    (hone : ∀ a, best [a] = some a)
    (hmore : ∀ a b l, best (a :: b :: l) = (best (b :: l)).map (op a)) {bs : List Bound}
    (hne : bs ≠ []) (hbs : ∀ b ∈ bs, Denotes env 3 (b.render names) (b.eval values)) :
    ∃ v, best (evalAll values bs) = some v ∧ Denotes env 3 (renderNested function names bs) v := by
  induction bs with
  | nil => exact absurd rfl hne
  | cons b bs ih =>
    have hb := hbs b List.mem_cons_self
    cases bs with
    | nil => exact ⟨_, hone _, hb⟩
    | cons b' bs =>
      obtain ⟨v, hv, hrest⟩ :=
        ih (List.cons_ne_nil b' bs) fun b hb => hbs b (List.mem_cons_of_mem _ hb)
      refine ⟨op (b.eval values) v, ?_, ?_⟩
      · rw [evalAll] at hv
        rw [evalAll, evalAll, hmore, hv, Option.map_some]
      · exact (Denotes.call hname (hb.mono (by decide)) (hrest.mono (by decide))
          (hcall _ _)).mono (by decide)

theorem Printable.denotes (h : Names env names values) {b : Bound} (hb : b.Printable) :
    Denotes env 3 (b.render names) (b.eval values) := by
  induction hb with
  | const value =>
    rw [render, eval]
    exact (denotes_int value).mono (by decide)
  | affine ha =>
    rw [render, eval]
    exact AffineForm.denotes h _ ha
  | max hne _ ih =>
    obtain ⟨v, hv, htext⟩ := denotes_renderNested List.max? ⟨by decide, by decide, by decide⟩
      (fun _ _ => helperCalls_max) (fun _ => rfl) (fun a b l => by simp [List.max?_cons]) hne ih
    rw [render, eval, hv]
    exact htext
  | min hne _ ih =>
    obtain ⟨v, hv, htext⟩ := denotes_renderNested List.min? ⟨by decide, by decide, by decide⟩
      (fun _ _ => helperCalls_min) (fun _ => rfl) (fun a b l => by simp [List.min?_cons]) hne ih
    rw [render, eval, hv]
    exact htext
  | @aligned base target modulus _ htarget hmodulus ih =>
    rw [render, eval]
    have hdistance := (AffineForm.denotes h target htarget).sub
      ((ih.mono (by decide)).parens.mono (by decide))
    have hshift := Denotes.call ⟨by decide, by decide, by decide⟩ (hdistance.mono (by decide))
      ((denotes_int modulus).mono (by decide)) (helperCalls_pmod hmodulus)
    have hsum := ih.add (hshift.mono (by decide))
    -- the text of the program, cut where its parts begin
    have hplus : " + pmod(" = " + " ++ ("pmod" ++ "(") := by decide
    have hminus : " - (" = " - " ++ "(" := by decide
    have hcomma : "), " = ")" ++ ", " := by decide
    rw [hplus, hminus, hcomma]
    simpa only [String.append_assoc] using hsum

theorem printable_maxOf {bs : List Bound} (hne : bs ≠ []) (h : ∀ b ∈ bs, b.Printable) :
    (maxOf bs).Printable := by
  rcases maxOf_cases bs with ⟨b, rfl, hb⟩ | hmax
  · rw [hb]
    exact h b List.mem_cons_self
  · rw [hmax]
    exact .max hne h

theorem printable_minOf {bs : List Bound} (hne : bs ≠ []) (h : ∀ b ∈ bs, b.Printable) :
    (minOf bs).Printable := by
  rcases minOf_cases bs with ⟨b, rfl, hb⟩ | hmin
  · rw [hb]
    exact h b List.mem_cons_self
  · rw [hmin]
    exact .min hne h

end Bound

/-! ### Coordinates -/

namespace InverseMap

/-- The sign of the divisor can be moved to the dividend. -/
theorem tdiv_natAbs (s d : ℤ) : (s * d.sign).tdiv d.natAbs = s.tdiv d := by
  rcases lt_trichotomy d 0 with hneg | rfl | hpos
  · rw [Int.sign_eq_neg_one_of_neg hneg, Int.ofNat_natAbs_of_nonpos hneg.le, mul_neg_one,
      Int.neg_tdiv, Int.tdiv_neg, neg_neg]
  · simp
  · rw [Int.sign_eq_one_of_pos hpos, Int.natAbs_of_nonneg hpos.le, mul_one]

theorem dot_map_mul (row : List ℤ) (c : ℤ) :
    Point.dot (row.map (· * c)) values = Point.dot row values * c := by
  induction row generalizing values with
  | nil => simp [Point.dot]
  | cons a row ih =>
    cases values with
    | nil => simp [Point.dot]
    | cons v values =>
      rw [List.map_cons, Point.dot, Point.dot, ih]
      ring

theorem denotes_formula (h : Names env names values) {f : InverseMap} (hf : f.divisor ≠ 0)
    (row : List ℤ) :
    Denotes env 3 (f.formula names row) ((Point.dot row values).tdiv f.divisor) := by
  have hnumerator := h.denotes_linear (row.map (· * f.divisor.sign)) 0
  rw [dot_map_mul, Int.add_zero] at hnumerator
  unfold formula
  dsimp only
  rw [← tdiv_natAbs]
  split
  · next hone =>
    rw [hone, Int.natCast_one, Int.tdiv_one]
    exact hnumerator
  · have hdivisor : Denotes env 5 (toString f.divisor.natAbs) f.divisor.natAbs :=
      (Denotes.literal _).mono (by decide)
    have hparens := (hnumerator.mono (Nat.zero_le 3)).parens
    have hne : (f.divisor.natAbs : ℤ) ≠ 0 := by omega
    have hquotient := ((hparens.mono (by decide : 4 ≤ 6)).div hdivisor hne).mono (by decide : 3 ≤ 4)
    have hslash : ") / " = ")" ++ " / " := by decide
    rw [hslash]
    simpa only [String.append_assoc] using hquotient

/-- Division by zero is only accepted where there is nothing to divide. -/
theorem divisor_ne_zero {f : InverseMap} {q : Point} {s : ℤ} {scaled p : List ℤ}
    (h : (s :: scaled).mapM (f.divide q) = .ok p) : f.divisor ≠ 0 := by
  intro hzero
  rw [List.mapM_cons] at h
  obtain ⟨x, hx, -⟩ := Except.bind_eq_ok.mp h
  rw [divide, if_pos hzero] at hx
  cases hx

/-- Where the inverse map gives an iteration, the written coordinates have its values. -/
theorem values_formulas {f : InverseMap} {p : Point} (h : Names env names values)
    (hp : f.apply values = .ok p) : (f.formulas names).map (value? env) = p.map some := by
  unfold apply IntMatrix.mulVec? at hp
  split_ifs at hp
  simp only at hp
  rw [formulas, List.map_map]
  cases hrows : f.adjugate.toRows with
  | nil =>
    rw [hrows] at hp
    cases hp
    rfl
  | cons row rows =>
    rw [hrows] at hp
    have hne := divisor_ne_zero hp
    have hcancel : ∀ x, (f.divisor * x).tdiv f.divisor = x := fun x =>
      Int.mul_tdiv_cancel_left x hne
    have hquotients : p = (row :: rows).map fun row => (Point.dot row values).tdiv f.divisor := by
      have hscaled := congrArg (List.map (·.tdiv f.divisor)) ((mapM_divide_eq_ok hne).mp hp)
      simpa [Function.comp_def, hcancel] using hscaled
    rw [hquotients, List.map_map]
    refine List.map_congr_left fun row _ => ?_
    exact ((denotes_formula h hne row).mono (Nat.zero_le 3)).value?_eq

end InverseMap

/-! ### Derived nests -/

theorem loopVar_isName (k : ℕ) : IsName (loopVar k) := by
  have hlist : (loopVar k).toList = 'c' :: (toString k).toList := by simp [loopVar]
  have hdigits : (toString k).toList.all (charClass · == .word) :=
    List.all_eq_true.mpr fun _ hc => beq_iff_eq.mpr (charClass_of_mem_toString hc)
  have hletter : charClass 'c' = .word := by decide
  refine ⟨by simp [hlist], ?_, by simp [hlist]⟩
  rw [hlist, List.all_cons, hdigits, hletter]
  rfl

theorem loopVar_injective : Function.Injective loopVar := by
  intro j k h
  have hlist : (toString j).toList = (toString k).toList := by
    simpa [loopVar] using congrArg String.toList h
  have htokens := tokens?_number j
  rw [String.toList_injective hlist, tokens?_number] at htokens
  cases htokens
  rfl

/-- The enclosing variables of a nest are different names. -/
theorem names_loopVar {n : ℕ} {outer : Point} (h : outer.length = n) :
    Names (((List.range n).map loopVar).zip outer) ((List.range n).map loopVar) outer :=
  names_zip (List.forall_mem_map.mpr fun k _ => loopVar_isName k)
    (List.nodup_range.map loopVar_injective) (by simp [h])

theorem OuterForm.quotient_printable {f : OuterForm} {divisor : ℤ} (h : 0 < divisor)
    (rounding : Rounding) : (f.quotient divisor rounding).Printable := by
  unfold quotient
  split
  · exact .const _
  · split
    · exact .affine Int.one_pos
    · exact .affine h

theorem InnerConstraint.bounds?_printable {c : InnerConstraint} {b : Bound × Bound}
    (h : c.bounds? = some b) : b.1.Printable ∧ b.2.Printable := by
  have hne := factor_ne_zero_of_bounds? h
  unfold bounds? at h
  rw [if_neg hne] at h
  split at h
  · next hpos =>
    cases h
    exact ⟨OuterForm.quotient_printable hpos _, OuterForm.quotient_printable hpos _⟩
  · next hneg =>
    have hpos : 0 < -c.factor := by omega
    cases h
    exact ⟨OuterForm.quotient_printable hpos _, OuterForm.quotient_printable hpos _⟩

namespace Nest

variable {d : Domain} {t : Transform} {nest : Nest} {s : LatticeSteps}

theorem innerRange_printable (ht : t.WellFormed) (hdim : t.dim = 2) (houter : 0 < s.outerStep) :
    (innerRange d t s).1.Printable ∧ (innerRange d t s).2.Printable := by
  have hpair : ∀ b ∈ (innerConstraints d t).filterMap InnerConstraint.bounds?,
      b.1.Printable ∧ b.2.Printable := by
    intro b hb
    obtain ⟨c, -, hc⟩ := List.mem_filterMap.mp hb
    exact InnerConstraint.bounds?_printable hc
  have hne := InnerConstraint.filterMap_bounds?_ne_nil (exists_factor_ne_zero (d := d) ht hdim)
  have hlower := Bound.printable_maxOf (by simpa using hne)
    (List.forall_mem_map.mpr fun b hb => (hpair b hb).1)
  have hupper := Bound.printable_minOf (by simpa using hne)
    (List.forall_mem_map.mpr fun b hb => (hpair b hb).2)
  unfold innerRange
  dsimp only
  split
  · next hinner => exact ⟨.aligned hlower houter (by omega), hupper⟩
  · exact ⟨hlower, hupper⟩

/-- The loops have the variables of a nest of the given depth, and bounds that can be read back. -/
structure Printable (nest : Nest) (depth : ℕ) : Prop where
  varNames : nest.varNames = (List.range depth).map loopVar
  bounds : ∀ l ∈ nest.loops, l.lower.Printable ∧ l.upper.Printable

theorem permutedLoop_printable {row : ℕ} {l : Loop} (h : permutedLoop d t row = .ok l) :
    (l.lower.Printable ∧ l.upper.Printable) ∧ l.var = loopVar row := by
  obtain ⟨⟨lower, upper⟩, -, hl⟩ := Except.bind_eq_ok.mp h
  cases hl
  exact ⟨⟨.const lower, .const upper⟩, rfl⟩

theorem derivePermuted_printable (h : derivePermuted d t = .ok nest) : nest.Printable t.dim := by
  obtain ⟨loops, hloops, hnest⟩ := Except.bind_eq_ok.mp h
  cases hnest
  have hall := ((Except.mapM_eq_ok.mp hloops).imp fun _ _ => permutedLoop_printable).flip
  obtain ⟨hbounds, hvars⟩ := (List.forall₂_and_left _ _).mp hall
  refine ⟨?_, hbounds⟩
  rw [← List.forall₂_eq_eq_eq, Nest.varNames, List.forall₂_map_left_iff, List.forall₂_map_right_iff]
  exact hvars

theorem printable_of_derive (ht : t.Proper) (h : derive d t = .ok nest) :
    nest.Printable t.dim ∧ nest.inverse = t.inverse := by
  obtain ⟨hdim, -⟩ := dim_and_class_of_derive h
  rw [derive_eq hdim] at h
  split at h
  · refine ⟨derivePermuted_printable h, ?_⟩
    obtain ⟨loops, -, hnest⟩ := Except.bind_eq_ok.mp h
    cases hnest
    rfl
  · split at h
    · next htwo =>
      have hwf := ht.wellFormed (by omega)
      obtain ⟨s, hs, houter, -⟩ := LatticeSteps.ofTransform_eq_ok hwf htwo
      rw [derivePlanar_eq_ok htwo (hdim.trans htwo) hs] at h
      cases h
      refine ⟨⟨by rw [htwo]; rfl, ?_⟩, rfl⟩
      simp [planar, Bound.Printable.const, innerRange_printable hwf htwo houter]
    · cases h

/-- The text of a derived nest has the values of the nest. Read as C, with the functions that the
program defines, the bounds of every loop have their values whatever the values of the enclosing
variables are. At the image of a point, the coordinates are those that the inverse map gives, which is
the point itself. -/
theorem text_of_derive (ht : t.Proper) (h : derive d t = .ok nest) :
    (∀ k l, nest.loops[k]? = some l → ∀ outer : Point, outer.length = k →
      value? ((nest.varNames.take k).zip outer) (l.lower.render (nest.varNames.take k)) =
          some (l.lower.eval outer) ∧
        value? ((nest.varNames.take k).zip outer) (l.upper.render (nest.varNames.take k)) =
          some (l.upper.eval outer)) ∧
    ∀ p : Point, p.length = t.dim → nest.inverse.apply (t.apply p) = .ok p ∧
      nest.indexFormulas.map (value? (nest.varNames.zip (t.apply p))) = p.map some := by
  obtain ⟨⟨hvars, hbounds⟩, hinverse⟩ := printable_of_derive ht h
  constructor
  · intro k l hl outer houter
    have hk : k < t.dim := by
      have hlen := congrArg List.length hvars
      have hin := (List.getElem?_eq_some_iff.mp hl).1
      simp only [varNames, List.length_map, List.length_range] at hlen
      omega
    have htake : nest.varNames.take k = (List.range k).map loopVar := by
      rw [hvars, ← List.map_take, List.take_range, Nat.min_eq_left hk.le]
    obtain ⟨hlower, hupper⟩ := hbounds l (List.mem_of_getElem? hl)
    rw [htake]
    exact ⟨((hlower.denotes (names_loopVar houter)).mono (Nat.zero_le 3)).value?_eq,
      ((hupper.denotes (names_loopVar houter)).mono (Nat.zero_le 3)).value?_eq⟩
  · intro p hp
    have happly := ht.inverse_apply hp
    rw [indexFormulas, hinverse, hvars]
    exact ⟨happly, InverseMap.values_formulas (names_loopVar (ht.length_apply hp)) happly⟩

/-- A transform onto every third point of the plane, with negative coefficients, both roundings and an
aligned start. -/
theorem text_of_derive_index_three :
    ∃ nest l, derive ⟨[0, -1], [3, 2]⟩ ⟨⟨2, 2, #v[#v[-2, 1], #v[3, -3]]⟩, 3⟩ = .ok nest ∧
      nest.loops[1]? = some l ∧
      (∀ c, value? [("c0", c)] ("max(ceild(-3*c0 - 3, 2), -3*c0 - 6) + " ++
            "pmod(0 - (max(ceild(-3*c0 - 3, 2), -3*c0 - 6)), 3)") = some (l.lower.eval [c]) ∧
          value? [("c0", c)] "min(floord(-3*c0 + 3, 2), -3*c0)" = some (l.upper.eval [c])) ∧
        ["(-3*c0 - c1) / 3", "(-3*c0 - 2*c1) / 3"].map (value? [("c0", -5), ("c1", 9)]) =
          [some 2, some (-1)] := by
  have hmade : Transform.Constructed ⟨⟨2, 2, #v[#v[-2, 1], #v[3, -3]]⟩, 3⟩ :=
    .ofMatrix (m := ⟨2, 2, #v[#v[-2, 1], #v[3, -3]]⟩) (by decide)
  have hd : Domain.WellFormed ⟨[0, -1], [3, 2]⟩ :=
    .cons (by decide) (.cons (by decide) .nil)
  obtain ⟨nest, hnest, -⟩ := exists_derive hd hmade.wellFormed.proper rfl (Or.inl rfl)
  have htext : (derive ⟨[0, -1], [3, 2]⟩ ⟨⟨2, 2, #v[#v[-2, 1], #v[3, -3]]⟩, 3⟩).toOption.map
      (fun nest => (nest.varNames, nest.indexFormulas, nest.loops[1]?.map fun l =>
        (l.lower.render ["c0"], l.upper.render ["c0"]))) =
      some (["c0", "c1"], ["(-3*c0 - c1) / 3", "(-3*c0 - 2*c1) / 3"],
        some ("max(ceild(-3*c0 - 3, 2), -3*c0 - 6) + " ++
          "pmod(0 - (max(ceild(-3*c0 - 3, 2), -3*c0 - 6)), 3)",
          "min(floord(-3*c0 + 3, 2), -3*c0)")) := by
    decide +kernel
  obtain ⟨hbounds, hpoints⟩ := text_of_derive hmade.wellFormed.proper hnest
  rw [hnest] at htext
  simp only [Except.toOption, Option.map_some, Option.some.injEq, Prod.mk.injEq] at htext
  obtain ⟨hvars, hformulas, hloop⟩ := htext
  obtain ⟨l, hl, htexts⟩ := Option.map_eq_some_iff.mp hloop
  obtain ⟨hlower, hupper⟩ := Prod.mk.inj htexts
  refine ⟨nest, l, hnest, hl, fun c => ?_, ?_⟩
  · have hvalues := hbounds 1 l hl [c] rfl
    rw [hvars] at hvalues
    rw [← hlower, ← hupper]
    exact hvalues
  · have hvalues := (hpoints [2, -1] rfl).2
    rw [hvars, hformulas] at hvalues
    exact hvalues

end Nest

end AffineLoops
