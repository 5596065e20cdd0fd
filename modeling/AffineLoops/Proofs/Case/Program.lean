import AffineLoops.Proofs.Case.Build
import AffineLoops.Proofs.Case.Table
/-!
# The auxiliary grid of a program

A program with an auxiliary grid contains the table of the grid. Where the table defines the array
of the grid, the right-hand side of the assignment reads from it what the rule reads from the grid.

## Main definitions

- `CProgram.exists_render_eq` — the table is a part of the program
- `CProgram.cellNames`, `CProgram.bodyScope` — the names in the assignment and what they stand for
- `CProgram.render_auxiliary` — what the table of a program defines, and what the assignment reads
-/

namespace AffineLoops

open CText

namespace CProgram

/-! ### The table in the program -/

theorem extends_function {t u : Indented} (h : t.Extends u) (name : String) (c : Case)
    (nest : Nest) : t.Extends (function u name c nest) := by
  have hopened : ∀ (u : Indented) (l : Loop × ℕ),
      u.Extends (u.line (loopHeader (nest.varNames.take l.2) l.1)).indent :=
    fun u _ => ((Indented.Extends.refl u).line _).indent
  have hclosed : ∀ (u : Indented) (_ : Loop), u.Extends (u.dedent.line "\x7d") :=
    fun u _ => (Indented.Extends.refl u).dedent.line _
  refine (Indented.Extends.foldl ?_ hclosed nest.loops).dedent.line _
  exact (((h.line _).indent.foldl hopened nest.loops.zipIdx).lines _).line _

theorem extends_fill {t u : Indented} (h : t.Extends u) (p : CProgram) (input : InputKind) :
    t.Extends (p.fill u input) := by
  cases input with
  | random => exact (((h.lines _).indent.line _).dedent).line _
  | zeros => exact h.line _

theorem extends_mainFunction {t u : Indented} (h : t.Extends u) (p : CProgram) (c : Case) :
    t.Extends (p.mainFunction u c) :=
  ((((extends_fill ((h.line _).indent.lines _) p c.input).lines _).lines _).lines _).dedent.line _

variable {p : CProgram} {c : Case} {g : Grid} {program : String}

/-- What is written before the table. -/
def prelude (c : Case) : Indented :=
  ((({ unit := "    " } : Indented).lines (header c)).newline.lines helpers).newline

theorem margin_prelude (c : Case) : (prelude c).margin = (0, "    ") := by
  rw [prelude, Indented.newline, Indented.margin_writeChar, Indented.margin_lines, Indented.newline,
    Indented.margin_writeChar, Indented.margin_lines]
  rfl

/-- What is written from the table on. -/
def fromTable (p : CProgram) (c : Case) (tabled : Indented) : Indented :=
  p.mainFunction (function (function tabled.newline "reference" c c.reference).newline
    "transformed" c c.transformed).newline c

theorem extends_fromTable (p : CProgram) (c : Case) (tabled : Indented) :
    tabled.Extends (p.fromTable c tabled) :=
  extends_mainFunction (extends_function (extends_function (Indented.Extends.refl tabled).newline
    _ c _).newline _ c _).newline p c

/-- A program with a table is written exactly if the array counts from zero. -/
theorem render_eq_ok_iff (haux : c.aux = some g) : p.render c = .ok program ↔
    (∀ l ∈ c.arrayShape.lower, l = 0) ∧ program = (p.fromTable c (table (prelude c) g)).text := by
  have hany : c.arrayShape.lower.any (· ≠ 0) = true ↔ ¬∀ l ∈ c.arrayShape.lower, l = 0 := by simp
  rw [render, haux]
  by_cases hlower : ∀ l ∈ c.arrayShape.lower, l = 0
  · rw [if_neg (hany.not.mpr (not_not.mpr hlower))]
    exact ⟨fun h => ⟨hlower, (Except.ok.inj h).symm⟩, fun h => congrArg Except.ok h.2.symm⟩
  · rw [if_pos (hany.mpr hlower)]
    exact ⟨nofun, fun h => absurd h.1 hlower⟩

/-- The table of the auxiliary grid is written at the beginning of a line. -/
theorem exists_render_eq (hd : g.shape.WellFormed) (hg : g.WellFormed) (haux : c.aux = some g)
    (h : p.render c = .ok program) : ∃ before after, program = before ++ tableText g ++ after := by
  have htable : table (prelude c) g =
      { prelude c with text := (prelude c).text ++ tableText g } := by
    rw [table_eq rfl (margin_prelude c) hd hg, tableText_eq hd hg]
  obtain ⟨-, hprogram⟩ := (render_eq_ok_iff haux).mp h
  obtain ⟨after, hafter⟩ := extends_fromTable p c (table (prelude c) g)
  rw [htable] at hafter hprogram
  exact ⟨(prelude c).text, after, hprogram.trans hafter⟩

/-! ### The assignment -/

theorem toList_indexName (k : ℕ) :
    (indexName (k + 2)).toList = 'i' :: (toString (k + 2)).toList := by
  rw [indexName, String.toList_append]
  · rfl
  · exact Nat.succ_ne_zero _
  · omega

theorem isName_indexName (k : ℕ) : IsName (indexName k) := by
  match k with
  | 0 => exact ⟨by decide, by decide, by decide⟩
  | 1 => exact ⟨by decide, by decide, by decide⟩
  | k + 2 =>
    have hword : ∀ c ∈ (indexName (k + 2)).toList, charClass c = .word := by
      rw [toList_indexName]
      exact List.forall_mem_cons.mpr ⟨by decide, fun c => charClass_of_mem_toString⟩
    refine ⟨by simp [toList_indexName], ?_, ?_⟩
    · exact List.all_eq_true.mpr fun c hc => beq_iff_eq.mpr (hword c hc)
    · rw [toList_indexName]
      exact (by decide : 'i'.isDigit = false)

theorem indexName_injective : Function.Injective indexName := by
  have hlong : ∀ k, indexName (k + 2) ≠ "i" ∧ indexName (k + 2) ≠ "j" := by
    intro k
    simp only [ne_eq, ← String.toList_inj, toList_indexName]
    simp
  intro m n h
  match m, n with
  | 0, 0 => rfl
  | 1, 1 => rfl
  | 0, 1 => simp [indexName] at h
  | 1, 0 => simp [indexName] at h
  | 0, k + 2 => exact absurd h.symm (hlong k).1
  | 1, k + 2 => exact absurd h.symm (hlong k).2
  | k + 2, 0 => exact absurd h (hlong k).1
  | k + 2, 1 => exact absurd h (hlong k).2
  | k + 2, l + 2 =>
    -- what follows the letter is the number of the index
    have hdigits := congrArg (fun x => Nat.ofDigitChars 10 x.toList.tail 0) h
    simpa [toList_indexName] using hdigits

/-- The names in the assignment of a nest with so many loops. -/
def cellNames (n : ℕ) : CellNames where
  indices := (List.range n).map indexName
  maximum := "cmax"
  minimum := "cmin"

theorem cellNames_distinct (n : ℕ) : (cellNames n).Distinct where
  isName_array := show IsName "a" from ⟨by decide, by decide, by decide⟩
  isName_aux := isName_aux
  isName_maximum := show IsName "cmax" from ⟨by decide, by decide, by decide⟩
  isName_minimum := show IsName "cmin" from ⟨by decide, by decide, by decide⟩
  indices x hx := by
    obtain ⟨k, -, rfl⟩ := List.mem_map.mp hx
    exact isName_indexName k
  nodup := List.nodup_range.map indexName_injective
  array_ne_aux := show "a" ≠ "aux" by decide
  maximum_ne_minimum := show "cmax" ≠ "cmin" by decide

/-- What the names stand for at an iteration when the table has defined an array. -/
def bodyScope (a : CArray) (input : Grid) (q : Point) : Scope :=
  { (cellNames q.length).scope input none q with
    element := fun x s =>
      if x = "aux" then a.element? s else ((cellNames q.length).scope input none q).element x s }

theorem element_bodyScope_aux (a : CArray) (input : Grid) (q s : Point) :
    (bodyScope a input q).element "aux" s = a.element? s := by
  simp only [bodyScope, if_true]

theorem element_bodyScope_array (a : CArray) (input : Grid) (q s : Point) :
    (bodyScope a input q).element "a" s =
      ((cellNames q.length).scope input none q).element "a" s := by
  have hne : "a" ≠ "aux" := by decide
  simp only [bodyScope, if_neg hne]

theorem inScope_bodyScope {a : CArray} (ha : a.Holds g) (input : Grid) (q : Point) :
    (cellNames q.length).InScope (bodyScope a input q) input (some g) q := by
  have hlen : (cellNames q.length).indices.length = q.length := by simp [cellNames]
  have hscope :
      (cellNames q.length).InScope ((cellNames q.length).scope input none q) input none q :=
    (cellNames_distinct q.length).inScope hlen.le
  refine { hscope with element_array := ?_, element_aux := ?_ }
  · intro s v hv
    exact (element_bodyScope_array a input q s).trans (hscope.element_array s v hv)
  · intro s v hv
    exact (element_bodyScope_aux a input q s).trans (ha s v (Except.mapError_eq_ok.mp hv))

theorem readText?_bodyScope {a : CArray} (ha : a.Holds g) {e : CellExpr} {input : Grid} {q : Point}
    {v : Cell} (hv : e.eval input (some g) q = .ok v) :
    readText? (bodyScope a input q) (e.render (cellNames q.length)) =
      some ⟨v.toUInt64, e.elements (cellNames q.length) q⟩ := by
  have hwithin : e.Within (cellNames q.length).indices.length q := by
    intro o _
    rw [show (cellNames q.length).indices.length = q.length by simp [cellNames], List.take_length]
  exact (CellExpr.sumDenotes_render (inScope_bodyScope ha input q) hwithin hv).readText?_eq

/-! ### Programs with a table -/

/-- The table of the auxiliary grid is a part of the program. It defines an array with the cells of
the grid at their points exactly if the shape of the grid is tabular. Where an array has these
cells, the assignment computes from it what the rule computes from the grid. -/
theorem render_auxiliary (hd : g.shape.WellFormed) (hg : g.WellFormed) (haux : c.aux = some g)
    (h : p.render c = .ok program) :
    (∃ before after, program = before ++ tableText g ++ after) ∧
    ((∃ a, declaredArray? (tableText g) = some ("aux", a) ∧ a.Holds g) ↔ g.shape.Tabular) ∧
    ∀ a : CArray, a.Holds g → ∀ input q v, c.rule.expr.eval input c.aux q = .ok v →
      let indices := (List.range q.length).map indexName
      let body := c.rule.expr.render (cellNames q.length)
      assignment c.rule indices = "a" ++ String.join (indices.map bracket) ++ " = " ++ body ++ ";" ∧
      readText? (bodyScope a input q) body =
        some ⟨v.toUInt64, c.rule.expr.elements (cellNames q.length) q⟩ := by
  refine ⟨exists_render_eq hd hg haux h, holds_tableText_iff hd hg,
    fun a ha input q v hv => ⟨rfl, ?_⟩⟩
  rw [haux] at hv
  exact readText?_bodyScope ha hv

/-- Every cell of an array takes the value of the cell of a grid of the same shape. -/
def copied (g : Grid) : CaseSpec where
  name := "copy"
  domain := g.shape
  arrayShape := g.shape
  transform := .identity g.shape.dim
  dependences := .empty g.shape.dim
  rule := ⟨"copy", .aux (List.replicate g.shape.dim 0)⟩
  aux := some g

/-- A table of two rows. -/
def twoRows : Grid :=
  ⟨⟨[0, 0], [2, 3]⟩, #[5, 6, 7, -8, 9, 10]⟩

theorem render_auxiliary_twoRows :
    ∃ c program before after a, Case.build (copied twoRows) = .ok c ∧ render {} c = .ok program ∧
      program = before ++ tableText twoRows ++ after ∧
      tableText twoRows =
        "static const cell aux[2][3] = \x7b\n    \x7b5, 6, 7\x7d,\n    \x7b-8, 9, 10\x7d,\n\x7d;\n" ∧
      declaredArray? (tableText twoRows) = some ("aux", a) ∧ a.element? [1, 0] = some (-8) := by
  have hd : twoRows.shape.WellFormed := .cons (by decide) (.cons (by decide) .nil)
  obtain ⟨c, hc, haux, hlower⟩ := Except.exists_of_any_toOption (by decide +kernel :
    (Case.build (copied twoRows)).toOption.any fun c => c.aux = some twoRows ∧
      ∀ l ∈ c.arrayShape.lower, l = 0)
  have hrender : render {} c = .ok _ := (render_eq_ok_iff haux).mpr ⟨hlower, rfl⟩
  obtain ⟨⟨before, after, hprogram⟩, hiff, -⟩ := render_auxiliary hd (by decide) haux hrender
  have htabular : twoRows.shape.Tabular := ⟨by decide, Or.inr (by decide)⟩
  obtain ⟨a, ha, hholds⟩ := hiff.mpr htabular
  exact ⟨c, _, before, after, a, hc, hrender, hprogram, by decide +kernel, ha,
    hholds [1, 0] (-8) (by decide)⟩

/-- A table along a single axis. -/
def oneAxis : Grid :=
  ⟨⟨[0], [3]⟩, #[5, 6, 7]⟩

/-- The row has braces of its own, which leave room for one integer only. -/
theorem not_holds_tableText_oneAxis : oneAxis.shape.WellFormed ∧ oneAxis.WellFormed ∧
    ∃ c program before after, Case.build (copied oneAxis) = .ok c ∧ c.aux = some oneAxis ∧
      render {} c = .ok program ∧ program = before ++ tableText oneAxis ++ after ∧
      tableText oneAxis = "static const cell aux[3] = \x7b\n    \x7b5, 6, 7\x7d,\n\x7d;\n" ∧
      ¬∃ a, declaredArray? (tableText oneAxis) = some ("aux", a) ∧ a.Holds oneAxis := by
  have hd : oneAxis.shape.WellFormed := .cons (by decide) .nil
  have hg : oneAxis.WellFormed := by decide
  obtain ⟨c, hc, haux, hlower⟩ := Except.exists_of_any_toOption (by decide +kernel :
    (Case.build (copied oneAxis)).toOption.any fun c => c.aux = some oneAxis ∧
      ∀ l ∈ c.arrayShape.lower, l = 0)
  have hrender : render {} c = .ok _ := (render_eq_ok_iff haux).mpr ⟨hlower, rfl⟩
  obtain ⟨before, after, hprogram⟩ := exists_render_eq hd hg haux hrender
  have htabular : ¬oneAxis.shape.Tabular := by
    rintro ⟨-, hrows | ⟨hdim, -⟩⟩
    · exact absurd hrows (by decide)
    · exact absurd hdim (by decide)
  exact ⟨hd, hg, c, _, before, after, hc, haux, hrender, hprogram, by decide +kernel,
    (holds_tableText_iff hd hg).not.mpr htabular⟩

end CProgram

end AffineLoops
