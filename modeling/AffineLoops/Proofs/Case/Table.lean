import AffineLoops.Case.Program
import AffineLoops.Proofs.CText.Declaration
import AffineLoops.Proofs.Grid
import AffineLoops.Proofs.Indented
import AffineLoops.Proofs.Rule.Text
/-!
# The auxiliary table of a program

The table of a program is written with one brace for every row along the last axis, whatever the
number of axes is. It defines the array of the auxiliary grid exactly if the grid counts from zero
and a row is what the array has as an element: one axis with a single cell, or two axes, or more of
which those between the first and the last have a single coordinate.

## Main definitions

- `Domain.Tabular` — the shapes of grids whose table is right
- `CProgram.tableText`, `CProgram.tableText_eq` — the table of a program
- `CArray.Holds` — the elements of an array are the cells of a grid
- `CProgram.holds_tableText_iff` — what the table defines
-/

namespace AffineLoops

open CText

/-! ### Shapes -/

namespace Domain

variable {d : Domain} {p : Point}

/-- The number of coordinates along every axis. -/
def sizes (d : Domain) : List ℕ :=
  d.extents.map Int.toNat

/-- Every axis counts from zero, and a row along the last axis is an element along the first one. -/
structure Tabular (d : Domain) : Prop where
  lower : ∀ l ∈ d.lower, l = 0
  rows : d.sizes = [1] ∨ 1 < d.dim ∧ ∀ n ∈ d.sizes.tail.dropLast, n = 1

theorem WellFormed.extents_pos (h : d.WellFormed) : ∀ e ∈ d.extents, 0 < e := by
  obtain ⟨lower, upper⟩ := d
  change List.Forall₂ (· < ·) lower upper at h
  change ∀ e ∈ List.zipWith (fun l u => u - l) lower upper, 0 < e
  induction h with
  | nil => simp
  | cons hlu _ ih => exact List.forall_mem_cons.mpr ⟨Int.sub_pos_of_lt hlu, ih⟩

theorem WellFormed.sizes_pos (h : d.WellFormed) : ∀ n ∈ d.sizes, 0 < n := by
  intro n hn
  obtain ⟨e, he, rfl⟩ := List.mem_map.mp hn
  have := h.extents_pos e he
  omega

theorem WellFormed.length_sizes (h : d.WellFormed) : d.sizes.length = d.dim := by
  have hlen := h.length_eq
  simp [sizes, extents, dim, ← hlen]

theorem within_lower {ls us : Point} (h : List.Forall₂ (· < ·) ls us) : within ls us ls := by
  induction h with
  | nil => rfl
  | cons hlu _ ih => simp [within, hlu, ih]

/-- A box whose points are counted from zero begins at zero. -/
theorem eq_zero_of_bounds {ls us : Point} (h : List.Forall₂ (· < ·) ls us)
    (hbounds : ∀ p : Point, p.length = ls.length → within ls us p →
      List.Forall₂ (fun (n : ℕ) (x : ℤ) => 0 ≤ x ∧ x < n)
        ((List.zipWith (fun l u => u - l) ls us).map Int.toNat) p) : ∀ l ∈ ls, l = 0 := by
  induction h with
  | nil => simp
  | @cons l u ls us hlu htail ih =>
    have hhead : ∀ x, l ≤ x → x < u → 0 ≤ x ∧ x < (u - l).toNat := by
      intro x hx hxu
      have hpoint := hbounds (x :: ls) rfl (by simp [within, hx, hxu, within_lower htail])
      cases hpoint with
      | cons hx _ => exact hx
    refine List.forall_mem_cons.mpr ⟨?_, ih fun p hp hwithin => ?_⟩
    · -- the first coordinate is not negative, and the last one is below the extent
      have hfirst := hhead l le_rfl hlu
      have hlast := hhead (u - 1) (by omega) (by omega)
      omega
    · have hpoint := hbounds (l :: p) (by simpa using hp) (by simp [within, hlu, hwithin])
      cases hpoint with
      | cons _ hp => exact hp

theorem sizes_of_lower (h : d.WellFormed) (hlower : ∀ l ∈ d.lower, l = 0) :
    d.sizes = d.upper.map Int.toNat := by
  have hextents : d.extents = d.upper := by
    obtain ⟨lower, upper⟩ := d
    change List.Forall₂ (· < ·) lower upper at h
    change List.zipWith (fun l u => u - l) lower upper = upper
    induction h with
    | nil => rfl
    | cons _ _ ih =>
      obtain ⟨rfl, hrest⟩ := List.forall_mem_cons.mp hlower
      rw [List.zipWith_cons_cons, ih hrest, Int.sub_zero]
  rw [sizes, hextents]

end Domain

/-! ### Rows -/

namespace CProgram

variable {w r : ℕ} {cells : List Cell}

theorem flatten_pieces (w r : ℕ) (cells : List Cell) :
    ((List.range r).map fun k => (cells.drop (k * w)).take w).flatten = cells.take (r * w) := by
  induction r with
  | zero => simp
  | succ r ih =>
    rw [List.range_succ, List.map_append, List.flatten_append, ih, Nat.succ_mul, List.take_add]
    simp

theorem chunks_eq (hw : 0 < w) (h : cells.length = r * w) :
    chunks w cells = (List.range r).map fun k => (cells.drop (k * w)).take w := by
  have hcount : (r * w + (w - 1)) / w = r := by
    rw [Nat.add_comm, Nat.add_mul_div_right _ _ hw, Nat.div_eq_of_lt (by omega), Nat.zero_add]
  rw [chunks, h, hcount]

theorem length_of_mem_chunks (hw : 0 < w) (h : cells.length = r * w) {row : List Cell}
    (hrow : row ∈ chunks w cells) : row.length = w := by
  rw [chunks_eq hw h] at hrow
  obtain ⟨k, hk, rfl⟩ := List.mem_map.mp hrow
  have hle : (k + 1) * w ≤ r * w := Nat.mul_le_mul_right w (List.mem_range.mp hk)
  rw [Nat.succ_mul] at hle
  rw [List.length_take, List.length_drop]
  omega

theorem flatten_chunks (hw : 0 < w) (h : cells.length = r * w) :
    (chunks w cells).flatten = cells := by
  rw [chunks_eq hw h, flatten_pieces, ← h, List.take_length]

/-! ### The written table -/

variable {g : Grid} {n : ℕ} {ns : List ℕ}

/-- The table as it is written at the beginning of a line. -/
def tableText (g : Grid) : String :=
  (table { unit := "    " } g).text

/-- The cells of the table, in the rows in which they are written. -/
def tableRows (g : Grid) : List (List Cell) :=
  chunks (max (tableWidth g) 1) g.cells.toList

theorem renderRow_eq (row : List Cell) : renderRow row = rowText (row.map Int64.toInt) := by
  rw [renderRow, rowText, List.map_map]
  rfl

theorem tableDeclarator_eq (hd : g.shape.WellFormed) :
    tableDeclarator g = declaratorText "aux" g.shape.sizes := by
  have hbracket : ∀ e ∈ g.shape.extents,
      bracket (toString e) = "[" ++ toString e.toNat ++ "]" := by
    intro e he
    have hpos := hd.extents_pos e he
    obtain ⟨n, rfl⟩ := Int.eq_ofNat_of_zero_le hpos.le
    rfl
  rw [tableDeclarator, declaratorText, Domain.sizes, List.map_map, List.map_congr_left hbracket]
  rfl

/-- The width is the last extent, or the number of cells where no other axis is. -/
theorem tableWidth_cases (hd : g.shape.WellFormed) (hg : g.WellFormed) :
    g.shape.sizes.length ≤ 1 ∧ tableWidth g = g.shape.sizes.prod ∨
      ∃ n mids, g.shape.sizes = n :: (mids ++ [tableWidth g]) := by
  by_cases hdim : 1 < g.shape.dim
  · right
    have hlen := hd.length_sizes
    obtain ⟨n, ns, hns⟩ := List.exists_cons_of_length_pos (by omega : 0 < g.shape.sizes.length)
    rw [hns, List.length_cons] at hlen
    have hne : ns ≠ [] := List.ne_nil_of_length_pos (by omega)
    have hlast : g.shape.sizes.getLast? = some (ns.getLast hne) := by
      rw [hns, List.getLast?_cons, List.getLast?_eq_some_getLast hne, Option.getD_some]
    have hwidth : tableWidth g = ns.getLast hne := by
      rw [Domain.sizes, List.getLast?_map, Option.map_eq_some_iff] at hlast
      obtain ⟨e, he, heq⟩ := hlast
      rw [tableWidth, if_pos hdim, List.getLastD_eq_getLast?, he, Option.getD_some, heq]
    exact ⟨n, ns.dropLast, by rw [hns, hwidth, List.dropLast_append_getLast]⟩
  · left
    rw [hd.length_sizes, tableWidth, if_neg hdim]
    exact ⟨by omega, hg⟩

theorem tableWidth_pos (hd : g.shape.WellFormed) (hg : g.WellFormed) : 0 < tableWidth g := by
  rcases tableWidth_cases hd hg with ⟨-, hwidth⟩ | ⟨n, mids, hsizes⟩
  · rw [hwidth]
    exact List.prod_pos hd.sizes_pos
  · exact hd.sizes_pos _ (by simp [hsizes])

theorem tableWidth_dvd (hd : g.shape.WellFormed) (hg : g.WellFormed) :
    tableWidth g ∣ g.cells.toList.length := by
  have hsize : g.cells.toList.length = g.shape.sizes.prod := hg
  rw [hsize]
  rcases tableWidth_cases hd hg with ⟨-, hwidth⟩ | ⟨n, mids, hsizes⟩
  · rw [hwidth]
  · exact List.dvd_prod (by simp [hsizes])

section Rows

variable (hd : g.shape.WellFormed) (hg : g.WellFormed)
include hd hg

theorem tableRows_eq_chunks : tableRows g = chunks (tableWidth g) g.cells.toList := by
  rw [tableRows, max_eq_left (tableWidth_pos hd hg)]

theorem length_of_mem_tableRows {row : List Cell} (hrow : row ∈ tableRows g) :
    row.length = tableWidth g := by
  obtain ⟨r, hr⟩ := tableWidth_dvd hd hg
  rw [tableRows_eq_chunks hd hg] at hrow
  exact length_of_mem_chunks (tableWidth_pos hd hg) (hr.trans (Nat.mul_comm _ _)) hrow

theorem flatten_tableRows : (tableRows g).flatten = g.cells.toList := by
  obtain ⟨r, hr⟩ := tableWidth_dvd hd hg
  rw [tableRows_eq_chunks hd hg]
  exact flatten_chunks (tableWidth_pos hd hg) (hr.trans (Nat.mul_comm _ _))

theorem length_tableRows : (tableRows g).length * tableWidth g = g.shape.sizes.prod := by
  have hlen : ((tableRows g).map List.length).sum = (tableRows g).length * tableWidth g := by
    rw [List.map_congr_left fun row => length_of_mem_tableRows hd hg, List.map_const',
      List.sum_replicate, smul_eq_mul]
  rw [← hlen, ← List.length_flatten, flatten_tableRows hd hg]
  exact hg

end Rows

/-! ### The text of the table -/

theorem isName_aux : IsName "aux" :=
  ⟨by decide, by decide, by decide⟩

/-- The integers that are written in the rows. -/
def tableValues (g : Grid) : List (List ℤ) :=
  (tableRows g).map (·.map Int64.toInt)

theorem ne_nil_of_mem_tableValues (hd : g.shape.WellFormed) (hg : g.WellFormed) :
    ∀ vs ∈ tableValues g, vs ≠ [] := by
  intro vs hvs
  obtain ⟨row, hrow, rfl⟩ := List.mem_map.mp hvs
  refine List.ne_nil_of_length_pos ?_
  rw [List.length_map, length_of_mem_tableRows hd hg hrow]
  exact tableWidth_pos hd hg

/-- At the beginning of a line the table is written as the definition of an array in rows. -/
theorem table_eq {t : Indented} (ht : t.atLineStart) (hmargin : t.margin = (0, "    "))
    (hd : g.shape.WellFormed) (hg : g.WellFormed) :
    table t g =
      { t with text := t.text ++ definitionText "aux" g.shape.sizes (tableValues g) } := by
  have hrows : (chunks (max (tableWidth g) 1) g.cells.toList).map renderRow =
      (tableValues g).map rowText := by
    rw [tableValues, List.map_map]
    exact List.map_congr_left fun row _ => renderRow_eq row
  have hhead : '\n' ∉
      ("static const cell " ++ declaratorText "aux" g.shape.sizes ++ " = \x7b").toList := by
    simp [newline_notMem_declaratorText isName_aux]
  have hnonempty : ∀ s ∈ (tableValues g).map rowText, s.toList ≠ [] :=
    List.forall_mem_map.mpr fun vs _ => by simp [rowText]
  have hunbroken : ∀ s ∈ (tableValues g).map rowText, '\n' ∉ s.toList :=
    List.forall_mem_map.mpr fun vs hvs =>
      newline_notMem_rowText (ne_nil_of_mem_tableValues hd hg vs hvs)
  obtain ⟨text, level, unit, start⟩ := t
  obtain rfl : start = true := ht
  obtain ⟨rfl, rfl⟩ := Prod.mk.inj hmargin
  -- the head, the rows one level further in, and the closing brace
  rw [table, hrows, tableDeclarator_eq hd, Indented.line_unindented (by simp) hhead]
  change ((Indented.lines ⟨_, 1, _, _⟩ _).dedent).line _ = _
  rw [Indented.lines_indented hnonempty hunbroken, List.map_map]
  change Indented.line ⟨_, 0, _, _⟩ _ = _
  rw [Indented.line_unindented (by decide) (by decide)]
  have hassign : " = \x7b\n" = " = \x7b" ++ "\n" := by decide
  have hbrace : "\x7d;\n" = "\x7d;" ++ "\n" := by decide
  unfold definitionText
  rw [hassign, hbrace]
  simp only [String.append_assoc]
  rfl

theorem tableText_eq (hd : g.shape.WellFormed) (hg : g.WellFormed) :
    tableText g = definitionText "aux" g.shape.sizes (tableValues g) := by
  rw [tableText, table_eq rfl rfl hd hg]
  exact String.empty_append

/-! ### The array that the table defines -/

/-- The cells of the rows modulo 2 ^ 64. -/
def tableCells (g : Grid) : List (List UInt64) :=
  (tableRows g).map (·.map Int64.toUInt64)

section Array

variable (hd : g.shape.WellFormed) (hg : g.WellFormed)
include hd hg

theorem declaredArray?_tableText : declaredArray? (tableText g) =
    (CArray.ofInitializer? g.shape.sizes (.braces ((tableCells g).map .row))).map ("aux", ·) := by
  have hne : tableValues g ≠ [] := by
    intro hnil
    have hlen := length_tableRows hd hg
    rw [List.map_eq_nil_iff.mp hnil, List.length_nil, Nat.zero_mul] at hlen
    exact (List.prod_pos hd.sizes_pos).ne hlen
  have hrows : (tableValues g).map (fun vs => Initializer.row (vs.map .ofInt)) =
      (tableCells g).map .row := by
    rw [tableValues, tableCells, List.map_map, List.map_map]
    refine List.map_congr_left fun row _ => ?_
    rw [Function.comp_apply, Function.comp_apply, List.map_map]
    exact congrArg _ (List.map_congr_left fun v _ => ofInt_toInt v)
  rw [tableText_eq hd hg,
    declaredArray?_definitionText isName_aux hne (ne_nil_of_mem_tableValues hd hg), hrows]

theorem length_of_mem_tableCells : ∀ row ∈ tableCells g, row.length = tableWidth g := by
  intro row hrow
  obtain ⟨cells, hcells, rfl⟩ := List.mem_map.mp hrow
  rw [List.length_map, length_of_mem_tableRows hd hg hcells]

theorem flatten_tableCells : (tableCells g).flatten = g.cells.toList.map Int64.toUInt64 := by
  rw [tableCells, ← List.map_flatten, flatten_tableRows hd hg]

/-- When a row is as long as an element along the first axis. -/
theorem exists_sizes_iff :
    (∃ n ns, g.shape.sizes = n :: ns ∧ tableWidth g = ns.prod) ↔
      g.shape.sizes = [1] ∨ 1 < g.shape.dim ∧ ∀ n ∈ g.shape.sizes.tail.dropLast, n = 1 := by
  rw [← hd.length_sizes]
  rcases tableWidth_cases hd hg with ⟨hlen, hwidth⟩ | ⟨n, mids, hsizes⟩
  · -- no axis or a single one
    rw [hwidth]
    match h : g.shape.sizes with
    | [] => simp
    | [n] => simp
    | _ :: _ :: _ => simp [h] at hlen
  · have hpos := tableWidth_pos hd hg
    have hone : tableWidth g = (mids ++ [tableWidth g]).prod ↔ ∀ n ∈ mids, n = 1 := by
      rw [List.prod_append, List.prod_singleton]
      constructor
      · intro h n hn
        have hprod : mids.prod = 1 := Nat.eq_of_mul_eq_mul_right hpos (by omega)
        exact Nat.dvd_one.mp (hprod ▸ List.dvd_prod hn)
      · intro h
        rw [List.prod_eq_one h, Nat.one_mul]
    rw [hsizes]
    simp [← hone]

/-- The table defines an array exactly if a row is as long as an element along the first axis; the
cells are in row-major order. -/
theorem declaredArray?_tableText_eq_some_iff {a : CArray} :
    declaredArray? (tableText g) = some ("aux", a) ↔
      (∃ n ns, g.shape.sizes = n :: ns ∧ tableWidth g = ns.prod) ∧
        a = ⟨g.shape.sizes, g.cells.toList.map Int64.toUInt64⟩ := by
  have hpos := hd.sizes_pos
  have hwidth := tableWidth_pos hd hg
  have hsize : (tableCells g).length * tableWidth g = g.shape.sizes.prod := by
    rw [tableCells, List.length_map, length_tableRows hd hg]
  have hcases := tableWidth_cases hd hg
  rw [declaredArray?_tableText hd hg, ← flatten_tableCells hd hg]
  cases hsizes : g.shape.sizes with
  | nil => simp [CArray.ofInitializer?_nil_rows]
  | cons n ns =>
    rw [hsizes] at hpos hsize hcases
    have hflat (hns : ns = []) : (tableCells g).length = 1 := by
      subst hns
      rcases hcases with ⟨-, hw⟩ | ⟨m, mids, heq⟩
      · exact Nat.eq_of_mul_eq_mul_right hwidth (by rw [hsize, Nat.one_mul, hw])
      · simp at heq
    have hnested (hns : ns ≠ []) : tableWidth g ≤ ns.prod := by
      rcases hcases with ⟨hlen, -⟩ | ⟨m, mids, heq⟩
      · exact absurd (List.length_eq_zero_iff.mp (by simpa using hlen)) hns
      · obtain ⟨-, rfl⟩ := List.cons.inj heq
        exact Nat.le_of_dvd (List.prod_pos (List.forall_mem_cons.mp hpos).2) (by simp)
    have hdefined (a : CArray) := CArray.ofInitializer?_rows_eq_some_iff (a := a) hpos
      (length_of_mem_tableCells hd hg) hsize hflat hnested
    simp [hdefined]

/-- The array that the table defines has the cells of the grid if the grid counts from zero. -/
theorem element?_tableCells (hlower : ∀ l ∈ g.shape.lower, l = 0) {p : Point} {v : Cell}
    (hv : g.get p = .ok v) :
    CArray.element? ⟨g.shape.sizes, g.cells.toList.map Int64.toUInt64⟩ p = some v.toUInt64 := by
  rw [Grid.get] at hv
  split at hv
  · cases hv
  · next k hk =>
    cases hv
    have hlt : k < g.cells.size := (Grid.index_lt hd hk).trans_eq hg.symm
    rw [Domain.linearIndex?] at hk
    split at hk
    · next hp =>
      cases hk
      rw [Domain.contains, Bool.and_eq_true, beq_iff_eq, Domain.dim] at hp
      rw [CArray.element?, Domain.sizes_of_lower hd hlower,
        CArray.cellAt?_eq hlower hd.length_eq hp]
      simp [hlt, Array.getD_eq_getD_getElem?]
    · cases hk

end Array

end CProgram

/-! ### What the table stands for -/

/-- At every point of the grid the array has the cell of the grid. -/
def CText.CArray.Holds (a : CArray) (g : Grid) : Prop :=
  ∀ p v, g.get p = .ok v → a.element? p = some v.toUInt64

namespace CProgram

variable {g : Grid}

theorem holds_tableText_iff (hd : g.shape.WellFormed) (hg : g.WellFormed) :
    (∃ a, declaredArray? (tableText g) = some ("aux", a) ∧ a.Holds g) ↔ g.shape.Tabular := by
  simp only [declaredArray?_tableText_eq_some_iff hd hg, exists_sizes_iff hd hg]
  constructor
  · rintro ⟨a, ⟨hrows, rfl⟩, hholds⟩
    refine ⟨Domain.eq_zero_of_bounds hd fun p hp hwithin => ?_, hrows⟩
    have hcontains : g.shape.contains p := by
      rw [Domain.contains, Bool.and_eq_true, beq_iff_eq]
      exact ⟨hp, hwithin⟩
    obtain ⟨v, hv⟩ := Grid.exists_get hcontains
    exact CArray.bounds_of_cellAt?_eq_some (hholds p v hv)
  · intro h
    exact ⟨_, ⟨h.rows, rfl⟩, fun p v => element?_tableCells hd hg h.lower⟩

end CProgram

end AffineLoops
