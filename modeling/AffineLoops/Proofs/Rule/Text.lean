import AffineLoops.Proofs.CText.Cell
import AffineLoops.Proofs.Except
import AffineLoops.Proofs.Rule.Run
/-!
# The text of a rule

The right-hand side of a rule is written with sums and differences that are grouped from the left,
so its text reads as another tree than the one that is evaluated. Both have the same value modulo
2 ^ 64, and name the same cells in the same order: every subscript adds the offset to the coordinate
whose name it has.

## Main definitions

- `CellNames.InScope` — the names stand for the grids, the coordinates and the two functions
- `CellExpr.elements` — the cells that an expression reads, by the names of the grids
- `CellExpr.sumDenotes_render` — what a written expression reads as
- `CellNames.Distinct`, `CellNames.scope` — names that can be told apart, and what they stand for
- `CellExpr.readText?_render` — the value of a written expression
-/

namespace AffineLoops

open CText

/-- In the scope, the names stand for the coordinates of the iteration, the cells of the two grids,
and the larger and the smaller of two cells. -/
structure CellNames.InScope (names : CellNames) (scope : Scope) (grid : Grid) (aux : Option Grid)
    (p : Point) : Prop where
  isName_array : IsName names.array
  isName_aux : IsName names.aux
  isName_maximum : IsName names.maximum
  isName_minimum : IsName names.minimum
  indices : Names scope.integers names.indices (p.take names.indices.length)
  element_array : ∀ q v, grid.get q = .ok v → scope.element names.array q = some v.toUInt64
  element_aux : ∀ q v, CellExpr.readAux aux q = .ok v → scope.element names.aux q = some v.toUInt64
  function_maximum : scope.function names.maximum = some signedMax
  function_minimum : scope.function names.minimum = some signedMin

namespace CText

variable {env : Env} {s x y : String} {q values : Point} {v : ℤ}

/-! ### Subscripts -/

/-- The text reads as an element of an array. -/
def ElementDenotes (env : Env) (s x : String) (q : Point) : Prop :=
  ∃ e, Written 6 s e ∧ e.element? env = some (x, q)

theorem ElementDenotes.name (hx : IsName x) : ElementDenotes env x x [] :=
  ⟨_, .name hx, rfl⟩

theorem ElementDenotes.bracket {t : String} (h : ElementDenotes env s x q)
    (ht : Denotes env 3 t v) : ElementDenotes env (s ++ ("[" ++ t ++ "]")) x (q ++ [v]) := by
  obtain ⟨e, he, helement⟩ := h
  obtain ⟨f, hf, hv⟩ := Denotes.iff_written.mp ht
  rw [← String.append_assoc, ← String.append_assoc]
  exact ⟨_, he.index (hf.mono (Nat.zero_le 3)), Expr.element?_index helement hv⟩

/-- A subscript adds the offset to the coordinate. -/
theorem ElementDenotes.subscript (h : ElementDenotes env s x q) (hy : IsName y)
    (hv : env.lookup y = some v) (o : ℤ) :
    ElementDenotes env (s ++ CellExpr.subscript y o) x (q ++ [v + o]) := by
  have hname : Denotes env 3 y v := (Denotes.name hy hv).mono (by decide)
  unfold CellExpr.subscript
  split
  · next hzero =>
    rw [hzero, Int.add_zero]
    exact h.bracket hname
  · have hnumber : Denotes env 4 (toString o.natAbs) o.natAbs :=
      (Denotes.literal o.natAbs).mono (by decide)
    split
    · next hpos =>
      rw [Int.natAbs_of_nonneg hpos.le] at hnumber
      have hsum := hname.add hnumber
      rw [← toString_of_nonneg hpos.le] at hsum
      simpa [String.append_assoc] using h.bracket hsum
    · rw [Int.ofNat_natAbs_of_nonpos (by omega)] at hnumber
      simpa [String.append_assoc] using h.bracket (hname.sub hnumber)

theorem ElementDenotes.subscripts {names : List String} (h : ElementDenotes env s x q)
    (hnames : Names env names values) (offset : Point) :
    ElementDenotes env (s ++ CellExpr.subscripts names offset) x (q ++ values.shift offset) := by
  induction hnames generalizing offset s q with
  | nil => simpa [CellExpr.subscripts, Point.shift] using h
  | cons hhead _ ih =>
    cases offset with
    | nil => simpa [CellExpr.subscripts, Point.shift] using h
    | cons o offset =>
      have hrest := ih (h.subscript hhead.1 hhead.2 o) offset
      simpa [CellExpr.subscripts, Point.shift, String.append_assoc] using hrest

end CText

/-! ### Expressions -/

namespace CellExpr

variable {names : CellNames} {scope : Scope} {grid : Grid} {aux : Option Grid} {p : Point}
  {e a b : CellExpr} {v : Cell}

/-- The cells that an expression reads at an iteration, from left to right, each with the name of
its grid. -/
def elements (names : CellNames) (p : Point) : CellExpr → List (String × Point)
  | .read offset => [(names.array, p.shift offset)]
  | .aux offset => [(names.aux, p.shift offset)]
  | .const _ => []
  | .add a b | .sub a b | .max a b | .min a b => a.elements names p ++ b.elements names p

/-- The offsets only move the first coordinates. -/
def Within (n : ℕ) (p : Point) (e : CellExpr) : Prop :=
  ∀ o, o ∈ e.reads ∨ o ∈ e.auxReads → Point.shift (p.take n) o = p.shift o

/-- The offsets of an operation are those of its operands. -/
theorem Within.operands {n : ℕ} (h : e.Within n p) (hreads : e.reads = a.reads ++ b.reads)
    (hauxReads : e.auxReads = a.auxReads ++ b.auxReads) : a.Within n p ∧ b.Within n p := by
  rw [Within, hreads, hauxReads] at h
  exact ⟨fun o ho => h o (ho.imp (List.mem_append_left _) (List.mem_append_left _)),
    fun o ho => h o (ho.imp (List.mem_append_right _) (List.mem_append_right _))⟩

theorem shift_take {o : Point} {n : ℕ} (h : o.length = n) :
    Point.shift (p.take n) o = p.shift o := by
  have htake : o.take n = o := List.take_of_length_le h.le
  calc Point.shift (p.take n) o = Point.shift (p.take n) (o.take n) := by rw [htake]
    _ = (p.shift o).take n := List.take_zipWith.symm
    _ = p.shift o := List.take_of_length_le (by simp [Point.shift, h])

theorem denotes_subscripts {x : String} {w : UInt64} (hx : IsName x)
    (hnames : Names scope.integers names.indices (p.take names.indices.length)) {offset : Point}
    (hshift : Point.shift (p.take names.indices.length) offset = p.shift offset)
    (hw : scope.element x (p.shift offset) = some w) :
    CellDenotes scope 6 (x ++ subscripts names.indices offset) ⟨w, [(x, p.shift offset)]⟩ := by
  obtain ⟨e, he, helement⟩ := (ElementDenotes.name hx).subscripts hnames offset
  rw [List.nil_append, hshift] at helement
  exact ⟨e, he, Expr.read?_element helement hw⟩

/-- The operands of an operation have values when the operation has one. -/
theorem exists_of_bind_eq_ok {f : Cell → Cell → Cell}
    (h : (do return f (← a.eval grid aux p) (← b.eval grid aux p)) = Except.ok v) :
    ∃ x y, a.eval grid aux p = .ok x ∧ b.eval grid aux p = .ok y ∧ f x y = v := by
  obtain ⟨x, hx, h⟩ := Except.bind_eq_ok.mp h
  obtain ⟨y, hy, h⟩ := Except.bind_eq_ok.mp h
  cases h
  exact ⟨x, y, hx, hy, rfl⟩

/-- A written expression is a sum, perhaps of one operand, with the value of the expression. -/
theorem sumDenotes_render (h : names.InScope scope grid aux p)
    (hshift : e.Within names.indices.length p) (hv : e.eval grid aux p = .ok v) :
    SumDenotes scope (e.render names) ⟨v.toUInt64, e.elements names p⟩ := by
  induction e generalizing v with
  | read offset =>
    have hcell := h.element_array _ _ (Except.mapError_eq_ok.mp hv)
    refine .operand ((denotes_subscripts h.isName_array h.indices ?_ hcell).mono (by decide))
    exact hshift offset (Or.inl List.mem_cons_self)
  | aux offset =>
    have hcell := h.element_aux _ _ hv
    refine .operand ((denotes_subscripts h.isName_aux h.indices ?_ hcell).mono (by decide))
    exact hshift offset (Or.inr List.mem_cons_self)
  | const value =>
    cases hv
    rw [render, ← ofInt_toInt]
    exact .operand ((CellDenotes.int value.toInt).mono (by decide))
  | add a b iha ihb =>
    obtain ⟨x, y, hx, hy, rfl⟩ := exists_of_bind_eq_ok hv
    obtain ⟨ha, hb⟩ := hshift.operands rfl rfl
    rw [render, Int64.toUInt64_add]
    exact (iha ha hx).add (ihb hb hy)
  | sub a b iha ihb =>
    obtain ⟨x, y, hx, hy, rfl⟩ := exists_of_bind_eq_ok hv
    obtain ⟨ha, hb⟩ := hshift.operands rfl rfl
    have htext : render names a ++ " - (" ++ render names b ++ ")" =
        render names a ++ " - " ++ ("(" ++ render names b ++ ")") := by
      simp only [String.append_assoc, show " - (" = " - " ++ "(" by decide]
    rw [render, Int64.toUInt64_sub, htext]
    exact (iha ha hx).minus ((ihb hb hy).parens.mono (by decide))
  | max a b iha ihb =>
    obtain ⟨x, y, hx, hy, rfl⟩ := exists_of_bind_eq_ok hv
    obtain ⟨ha, hb⟩ := hshift.operands rfl rfl
    have hcall := (iha ha hx).call h.isName_maximum h.function_maximum (ihb hb hy)
    rw [render, toUInt64_max]
    exact .operand (hcall.mono (by decide))
  | min a b iha ihb =>
    obtain ⟨x, y, hx, hy, rfl⟩ := exists_of_bind_eq_ok hv
    obtain ⟨ha, hb⟩ := hshift.operands rfl rfl
    have hcall := (iha ha hx).call h.isName_minimum h.function_minimum (ihb hb hy)
    rw [render, toUInt64_min]
    exact .operand (hcall.mono (by decide))

end CellExpr

/-! ### Names that can be told apart -/

namespace CellNames

variable {names : CellNames} {grid : Grid} {aux : Option Grid} {p : Point}

/-- All names are identifiers, and no two that stand for different things of one kind are equal. -/
structure Distinct (names : CellNames) : Prop where
  isName_array : IsName names.array
  isName_aux : IsName names.aux
  isName_maximum : IsName names.maximum
  isName_minimum : IsName names.minimum
  indices : ∀ x ∈ names.indices, IsName x
  nodup : names.indices.Nodup
  array_ne_aux : names.array ≠ names.aux
  maximum_ne_minimum : names.maximum ≠ names.minimum

/-- What the names stand for at an iteration. -/
def scope (names : CellNames) (grid : Grid) (aux : Option Grid) (p : Point) : Scope where
  integers := names.indices.zip p
  element x q :=
    if x = names.array then (grid.get q).toOption.map Int64.toUInt64
    else if x = names.aux then (CellExpr.readAux aux q).toOption.map Int64.toUInt64
    else none
  function f :=
    if f = names.maximum then some signedMax
    else if f = names.minimum then some signedMin
    else none

theorem Distinct.inScope (h : names.Distinct) (hp : names.indices.length ≤ p.length) :
    names.InScope (names.scope grid aux p) grid aux p where
  isName_array := h.isName_array
  isName_aux := h.isName_aux
  isName_maximum := h.isName_maximum
  isName_minimum := h.isName_minimum
  indices := by
    have hzip : names.indices.zip p = names.indices.zip (p.take names.indices.length) := by
      rw [List.zip_eq_zip_take_min, Nat.min_eq_left hp, List.take_length]
    rw [scope, hzip]
    exact names_zip h.indices h.nodup (List.length_take_of_le hp).symm
  element_array q v hv := by
    simp only [scope, if_true, hv]
    rfl
  element_aux q v hv := by
    simp only [scope, if_neg h.array_ne_aux.symm, if_true, hv]
    rfl
  function_maximum := if_pos rfl
  function_minimum := by
    simp only [scope, if_neg h.maximum_ne_minimum.symm, if_true]

end CellNames

/-- The text of an expression, read as C groups it, has the value of the expression modulo 2 ^ 64
wherever the expression has a value, and its subscripts name the cells at the offsets from the
iteration. -/
theorem CellExpr.readText?_render {names : CellNames} {e : CellExpr} {grid : Grid}
    {aux : Option Grid} {p : Point} {v : Cell} (hnames : names.Distinct)
    (hlen : ∀ o, o ∈ e.reads ∨ o ∈ e.auxReads → o.length = names.indices.length)
    (hp : names.indices.length ≤ p.length) (hv : e.eval grid aux p = .ok v) :
    readText? (names.scope grid aux p) (e.render names) =
      some ⟨v.toUInt64, e.elements names p⟩ :=
  have hshift : e.Within names.indices.length p := fun o ho => shift_take (hlen o ho)
  (sumDenotes_render (hnames.inScope hp) hshift hv).readText?_eq

/-- A rule whose value overflows, with negative literals and a difference inside a sum. -/
def overflowing : CellExpr :=
  .sub (.add (.const Int64.maxValue) (.add (.read [-1, 0]) (.sub (.aux [0, 2]) (.const (-7)))))
    (.max (.sub (.read [0, 1]) (.add (.const 4) (.read [0, 0]))) (.min (.const (-3)) (.aux [1, 0])))

/-- Names for the rule, none of them the usual one. -/
def overflowingNames : CellNames :=
  ⟨"u", "table", ["x", "y"], "larger", "smaller"⟩

theorem overflowingNames_distinct : overflowingNames.Distinct where
  isName_array := ⟨by decide, by decide, by decide⟩
  isName_aux := ⟨by decide, by decide, by decide⟩
  isName_maximum := ⟨by decide, by decide, by decide⟩
  isName_minimum := ⟨by decide, by decide, by decide⟩
  indices := by
    simp only [overflowingNames, List.forall_mem_cons]
    exact ⟨⟨by decide, by decide, by decide⟩, ⟨by decide, by decide, by decide⟩, by simp⟩
  nodup := by decide
  array_ne_aux := by decide
  maximum_ne_minimum := by decide

/-- The largest cell, plus 40, 3 and 7, less the larger of 6 and -4, over grids that do not begin at
zero. -/
theorem readText?_render_overflowing :
    readText? (overflowingNames.scope ⟨⟨[0, -1], [2, 1]⟩, #[40, 50, 60, 70]⟩
        (some ⟨⟨[1, -1], [3, 2]⟩, #[-1, 2, 3, -4, 5, 6]⟩) [1, -1])
      ("9223372036854775807 + u[x - 1][y] + table[x][y + 2] - (-7) - " ++
        "(larger(u[x][y + 1] - (4 + u[x][y]), smaller(-3, table[x + 1][y])))") =
      some ⟨9223372036854775851, [("u", [0, -1]), ("table", [1, 1]), ("u", [1, 0]), ("u", [1, -1]),
        ("table", [2, -1])]⟩ := by
  have htext : overflowing.render overflowingNames =
      "9223372036854775807 + u[x - 1][y] + table[x][y + 2] - (-7) - " ++
        "(larger(u[x][y + 1] - (4 + u[x][y]), smaller(-3, table[x + 1][y])))" := by
    decide +kernel
  have hlen : ∀ o ∈ overflowing.reads ++ overflowing.auxReads, o.length = 2 := by decide
  rw [← htext]
  exact CellExpr.readText?_render (v := -9223372036854775765) overflowingNames_distinct
    (fun o ho => hlen o (List.mem_append.mpr ho)) (by decide) (by decide +kernel)

end AffineLoops
