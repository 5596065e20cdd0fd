import AffineLoops.Grid.Basic
import Mathlib.Algebra.Order.BigOperators.GroupWithZero.List
import Mathlib.Algebra.Order.Ring.Nat
/-!
# Initialised arrays

An array of arrays is initialised from a list in which every brace belongs to one object. What is in
the brace of an object initialises its elements and must not be more than it has room for; an object
without a brace takes as many initialisers from the list around it as it has cells. Cells for which
no initialiser is left are zero.

## Main definitions

- `Initializer` — initialisers as they are nested
- `fill?` — the cells of an object that is initialised from a list
- `CArray`, `CArray.ofInitializer?`, `CArray.element?` — arrays, their definition and their elements
- `CArray.ofInitializer?_rows_eq_some_iff` — which arrays are defined by rows in braces
- `CArray.cellAt?_eq` — elements by their position in row-major order
-/

namespace AffineLoops.CText

/-- What is written for an object: an integer, modulo 2 ^ 64, or a list in braces. -/
inductive Initializer where
  | value (v : UInt64)
  | braces (items : List Initializer)

/-- A list in braces without further braces. -/
def Initializer.row (vs : List UInt64) : Initializer :=
  .braces (vs.map .value)

/-- What a single cell is initialised with. A brace around it may hold one integer only. -/
def Initializer.cell? : Initializer → Option UInt64
  | .value v => some v
  | .braces [.value v] => some v
  | .braces _ => none

/-- The cells of so many elements, each initialised from what those before it have left. -/
def fillElements? (element : List Initializer → Option (List UInt64 × List Initializer)) :
    ℕ → List Initializer → Option (List UInt64 × List Initializer)
  | 0, items => some ([], items)
  | n + 1, items => do
    let (first, items) ← element items
    let (others, items) ← fillElements? element n items
    return (first ++ others, items)

/-- The cells of an object with the given extents that is initialised from the front of a list, and
what it leaves of the list. -/
def fill? : List ℕ → List Initializer → Option (List UInt64 × List Initializer)
  | [], [] => some ([0], [])
  | [], item :: rest => item.cell?.map fun v => ([v], rest)
  | n :: extents, .braces items :: rest =>
    match fillElements? (fun items => fill? extents items) n items with
    | some (cells, []) => some (cells, rest)
    | _ => none
  | n :: extents, items => fillElements? (fun items => fill? extents items) n items

/-- An array of cells with its extents, none of them for a single cell. -/
structure CArray where
  extents : List ℕ
  /-- The cells in the order of the memory. -/
  cells : List UInt64

namespace CArray

/-- The array that is defined by an initialiser. Without braces it defines a single cell only. -/
def ofInitializer? (extents : List ℕ) : Initializer → Option CArray
  | .value v => if extents = [] then some ⟨[], [v]⟩ else none
  | .braces items => (fill? extents [.braces items]).map fun (cells, _) => ⟨extents, cells⟩

/-- The cell at a list of subscripts, one for each extent and below it. The elements of an array lie
one after the other in memory. -/
def cellAt? : List ℕ → List UInt64 → Point → Option UInt64
  | [], cells, [] => cells.head?
  | n :: extents, cells, x :: p =>
    if 0 ≤ x ∧ x < n then cellAt? extents (cells.drop (x.toNat * extents.prod)) p else none
  | _, _, _ => none

/-- The element at a point. -/
def element? (a : CArray) (p : Point) : Option UInt64 :=
  cellAt? a.extents a.cells p

end CArray

/-! ### Objects without braces of their own -/

section Fill

variable {element : List Initializer → Option (List UInt64 × List Initializer)} {n m : ℕ}
  {extents : List ℕ} {items rest left : List Initializer} {cells vs : List UInt64}
  {rows : List (List UInt64)}

theorem fillElements?_succ {after : List Initializer} {others : List UInt64}
    (hfirst : element items = some (cells, after))
    (hothers : fillElements? element n after = some (others, left)) :
    fillElements? element (n + 1) items = some (cells ++ others, left) := by
  rw [fillElements?, hfirst, Option.bind_eq_bind, Option.bind_some]
  dsimp only
  rw [hothers]
  rfl

theorem fillElements?_values
    (h : ∀ vs rest, vs.length = m → element (vs.map .value ++ rest) = some (vs, rest))
    (hvs : vs.length = n * m) :
    fillElements? element n (vs.map .value ++ rest) = some (vs, rest) := by
  induction n generalizing vs with
  | zero =>
    obtain rfl := List.length_eq_zero_iff.mp (hvs.trans (Nat.zero_mul m))
    rfl
  | succ n ih =>
    have htake : (vs.take m).length = m := by
      rw [List.length_take, hvs, Nat.succ_mul]
      omega
    have hdrop : (vs.drop m).length = n * m := by
      rw [List.length_drop, hvs, Nat.succ_mul]
      omega
    have hsplit : vs.map Initializer.value ++ rest =
        (vs.take m).map .value ++ ((vs.drop m).map .value ++ rest) := by
      rw [← List.append_assoc, ← List.map_append, List.take_append_drop]
    have hall := fillElements?_succ (h _ _ htake) (ih hdrop)
    rwa [← hsplit, List.take_append_drop] at hall

/-- An object takes as many integers as it has cells. -/
theorem fill?_values (hpos : ∀ n ∈ extents, 0 < n) (hvs : vs.length = extents.prod) :
    fill? extents (vs.map .value ++ rest) = some (vs, rest) := by
  induction extents generalizing vs rest with
  | nil =>
    obtain ⟨v, rfl⟩ := List.length_eq_one_iff.mp hvs
    rfl
  | cons n extents ih =>
    obtain ⟨hn, hpos⟩ := List.forall_mem_cons.mp hpos
    -- the list begins with an integer, so the elements share it with what comes after the object
    have hne : vs ≠ [] := by
      refine List.ne_nil_of_length_pos ?_
      rw [hvs, List.prod_cons]
      exact Nat.mul_pos hn (List.prod_pos hpos)
    obtain ⟨v, vs, rfl⟩ := List.exists_cons_of_ne_nil hne
    exact fillElements?_values (fun _ _ => ih hpos) (hvs.trans List.prod_cons)

/-! ### Objects with a brace -/

theorem fill?_row (hpos : ∀ n ∈ extents, 0 < n) (hvs : vs.length = extents.prod) :
    fill? extents (.row vs :: rest) = some (vs, rest) := by
  cases extents with
  | nil =>
    obtain ⟨v, rfl⟩ := List.length_eq_one_iff.mp hvs
    rfl
  | cons n extents =>
    obtain ⟨-, hpos⟩ := List.forall_mem_cons.mp hpos
    have hcells : fillElements? (fun items => fill? extents items) n (vs.map .value ++ []) =
        some (vs, []) :=
      fillElements?_values (fun _ _ => fill?_values hpos) (hvs.trans List.prod_cons)
    rw [List.append_nil] at hcells
    rw [Initializer.row, fill?, hcells]

/-- An object takes no more than its brace. -/
theorem eq_of_fill?_braces (h : fill? extents (.braces items :: rest) = some (cells, left)) :
    left = rest := by
  cases extents with
  | nil =>
    obtain ⟨v, -, heq⟩ := Option.map_eq_some_iff.mp h
    cases heq
    rfl
  | cons n extents =>
    rw [fill?] at h
    split at h
    · cases h
      rfl
    · cases h

theorem fillElements?_rows
    (h : ∀ row ∈ rows, ∀ rest, element (.row row :: rest) = some (row, rest)) :
    fillElements? element rows.length (rows.map .row) = some (rows.flatten, []) := by
  induction rows with
  | nil => rfl
  | cons row rows ih =>
    obtain ⟨hrow, hrows⟩ := List.forall_mem_cons.mp h
    exact fillElements?_succ (hrow _) (ih hrows)

/-- Every element takes one row. -/
theorem eq_drop_of_fillElements?_rows (hn : n ≤ rows.length)
    (h : fillElements? (fun items => fill? extents items) n (rows.map .row) = some (cells, left)) :
    left = (rows.drop n).map .row := by
  induction n generalizing rows cells with
  | zero =>
    cases h
    rfl
  | succ n ih =>
    obtain ⟨row, rows, rfl⟩ := List.exists_cons_of_length_pos (Nat.zero_lt_of_lt hn)
    simp only [fillElements?, List.map_cons, Option.bind_eq_bind, Option.bind_eq_some_iff,
      Prod.exists] at h
    obtain ⟨first, after, hfirst, others, final, hothers, heq⟩ := h
    cases heq
    obtain rfl := eq_of_fill?_braces hfirst
    exact ih (Nat.le_of_succ_le_succ hn) hothers

end Fill

/-! ### Arrays -/

namespace CArray

variable {n w : ℕ} {extents : List ℕ} {rows : List (List UInt64)} {cells : List UInt64} {p : Point}
  {v : UInt64} {a : CArray}

theorem ofInitializer?_rows (hpos : ∀ n ∈ extents, 0 < n) (hn : rows.length = n)
    (hrows : ∀ row ∈ rows, row.length = extents.prod) :
    ofInitializer? (n :: extents) (.braces (rows.map .row)) =
      some ⟨n :: extents, rows.flatten⟩ := by
  have hfill : fillElements? (fun items => fill? extents items) rows.length (rows.map .row) =
      some (rows.flatten, []) :=
    fillElements?_rows fun row hrow _ => fill?_row hpos (hrows row hrow)
  rw [ofInitializer?, fill?, ← hn, hfill]
  rfl

theorem fillElements?_of_ofInitializer? {items : List Initializer}
    (h : ofInitializer? (n :: extents) (.braces items) = some a) :
    fillElements? (fun items => fill? extents items) n items = some (a.cells, []) := by
  rw [ofInitializer?, fill?] at h
  split at h
  · next hcells =>
    cases h
    exact hcells
  · cases h

/-- A single cell has no room for a row of several integers. -/
theorem length_of_ofInitializer?_row {vs : List UInt64}
    (h : ofInitializer? [n + 1] (.braces [.row vs]) = some a) : vs.length = 1 := by
  have hfill := fillElements?_of_ofInitializer? h
  simp only [fillElements?, fill?, Option.bind_eq_bind, Option.bind_eq_some_iff,
    Option.map_eq_some_iff] at hfill
  obtain ⟨-, ⟨v, hv, -⟩, -⟩ := hfill
  match vs with
  | [_] => rfl
  | [] => cases hv
  | _ :: _ :: _ => cases hv

theorem ofInitializer?_nil_rows (rows : List (List UInt64)) :
    ofInitializer? [] (.braces (rows.map .row)) = none :=
  match rows with
  | [] => rfl
  | [_] => rfl
  | _ :: _ :: _ => rfl

/-- Rows of one width define an array exactly if every element of it is written in one row. -/
theorem ofInitializer?_rows_eq_some_iff (hpos : ∀ m ∈ n :: extents, 0 < m)
    (hrows : ∀ row ∈ rows, row.length = w) (hsize : rows.length * w = (n :: extents).prod)
    (hflat : extents = [] → rows.length = 1) (hnested : extents ≠ [] → w ≤ extents.prod) :
    ofInitializer? (n :: extents) (.braces (rows.map .row)) = some a ↔
      w = extents.prod ∧ a = ⟨n :: extents, rows.flatten⟩ := by
  obtain ⟨hn, hpos⟩ := List.forall_mem_cons.mp hpos
  have hprod : 0 < extents.prod := List.prod_pos hpos
  rw [List.prod_cons] at hsize
  have hwidth (h : ofInitializer? (n :: extents) (.braces (rows.map .row)) = some a) :
      w = extents.prod := by
    by_cases hne : extents = []
    · -- the only row is a brace around what initialises a single cell
      obtain ⟨vs, rfl⟩ := List.length_eq_one_iff.mp (hflat hne)
      obtain ⟨n, rfl⟩ := Nat.exists_eq_succ_of_ne_zero hn.ne'
      subst hne
      rw [← hrows vs List.mem_cons_self]
      exact length_of_ofInitializer?_row h
    · -- there are no fewer rows than elements, and none may be left over
      have hle : n ≤ rows.length :=
        Nat.le_of_mul_le_mul_right
          (hsize.symm.le.trans (Nat.mul_le_mul_left _ (hnested hne))) hprod
      have hleft := eq_drop_of_fillElements?_rows hle (fillElements?_of_ofInitializer? h)
      have hcount : rows.length ≤ n := List.drop_eq_nil_iff.mp (List.map_eq_nil_iff.mp hleft.symm)
      rw [le_antisymm hcount hle] at hsize
      exact Nat.eq_of_mul_eq_mul_left hn hsize
  have hdefined (hw : w = extents.prod) :
      ofInitializer? (n :: extents) (.braces (rows.map .row)) =
        some ⟨n :: extents, rows.flatten⟩ := by
    subst hw
    exact ofInitializer?_rows hpos (Nat.eq_of_mul_eq_mul_right hprod hsize) hrows
  constructor
  · intro h
    exact ⟨hwidth h, Option.some_inj.mp (h.symm.trans (hdefined (hwidth h)))⟩
  · rintro ⟨hw, rfl⟩
    exact hdefined hw

/-- Subscripts count from zero. -/
theorem bounds_of_cellAt?_eq_some (h : cellAt? extents cells p = some v) :
    List.Forall₂ (fun (n : ℕ) (x : ℤ) => 0 ≤ x ∧ x < n) extents p := by
  induction extents generalizing cells p with
  | nil =>
    cases p with
    | nil => exact .nil
    | cons => cases h
  | cons n extents ih =>
    cases p with
    | nil => cases h
    | cons x p =>
      rw [cellAt?] at h
      split at h
      · next hx => exact .cons hx (ih h)
      · cases h

/-- From a multiple of the size on, the cells are those at the positions in row-major order. -/
theorem cellAt?_drop (cells : List UInt64) (ls us : Point) (hl : ∀ l ∈ ls, l = 0)
    (hlen : ls.length = us.length) (start : ℕ) :
    cellAt? (us.map Int.toNat) (cells.drop (start * (us.map Int.toNat).prod)) p =
      if p.length = ls.length ∧ Domain.within ls us p then
        cells[Domain.rowMajor start ls us p]? else none := by
  induction us generalizing ls start p with
  | nil =>
    obtain rfl := List.length_eq_zero_iff.mp hlen
    cases p with
    | nil => simp [cellAt?, Domain.within, Domain.rowMajor]
    | cons => simp [cellAt?]
  | cons u us ih =>
    obtain ⟨l, ls, rfl⟩ := List.exists_cons_of_length_eq_add_one hlen
    obtain ⟨rfl, hls⟩ := List.forall_mem_cons.mp hl
    cases p with
    | nil => simp [cellAt?]
    | cons x p =>
      -- `x` elements further on, in an element that `start` others come before
      have hdrop : (cells.drop (start * ((u :: us).map Int.toNat).prod)).drop
          (x.toNat * (us.map Int.toNat).prod) =
            cells.drop ((start * u.toNat + x.toNat) * (us.map Int.toNat).prod) := by
        rw [List.drop_drop, List.map_cons, List.prod_cons, Nat.add_mul, Nat.mul_assoc]
      rw [List.map_cons, cellAt?, ← List.map_cons, hdrop, ih ls hls (by simpa using hlen),
        Domain.rowMajor, Int.sub_zero, Int.sub_zero, ← ite_and]
      refine if_congr ?_ rfl rfl
      have hx : (0 ≤ x ∧ x < (u.toNat : ℤ)) ↔ 0 ≤ x ∧ x < u := by omega
      simp only [hx, Domain.within, List.length_cons, Nat.add_right_cancel_iff, Bool.and_eq_true,
        decide_eq_true_eq]
      tauto

theorem cellAt?_eq {ls us : Point} (hl : ∀ l ∈ ls, l = 0) (hlen : ls.length = us.length)
    (hp : p.length = ls.length ∧ Domain.within ls us p) :
    cellAt? (us.map Int.toNat) cells p = cells[Domain.rowMajor 0 ls us p]? := by
  have hcell := cellAt?_drop (p := p) cells ls us hl hlen 0
  rwa [Nat.zero_mul, List.drop_zero, if_pos hp] at hcell

end CArray

end AffineLoops.CText
