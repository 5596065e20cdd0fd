import AffineLoops.Proofs.CText.Linear
import AffineLoops.Rule.Expr
/-!
# Values of written cell expressions

An expression over cells is evaluated on unsigned 64-bit integers, so that literals, signs, sums and
differences are taken modulo 2 ^ 64. Its subscripts are expressions over the signed integers in
scope, which are exact, and name one element of an array. Besides its value an expression has the
elements that it names, from left to right.

A sum is written without parentheses around its operands. Read from the left it groups its terms in
another way than it was put together, which changes neither its value modulo 2 ^ 64 nor the elements
that it names.

## Main definitions

- `Scope` — the integers, arrays and functions that an expression can use
- `Reading`, `Expr.read?` — the value of an expression and the elements that it names
- `CellDenotes`, `SumDenotes` — texts that read as an operand, and as a sum of operands
- `SumDenotes.add`, `SumDenotes.cellDenotes` — the grouping of a sum is immaterial
-/

namespace AffineLoops.CText

/-! ### Cells modulo 2 ^ 64 -/

theorem toBitVec_ofInt (k : ℤ) : (UInt64.ofInt k).toBitVec = BitVec.ofInt 64 k := by
  apply BitVec.eq_of_toNat_eq
  have hlt : k % 2 ^ 64 < 2 ^ 64 := Int.emod_lt_of_pos k (by decide)
  simpa [UInt64.ofInt, BitVec.toNat_ofInt] using hlt

theorem ofInt_toInt (v : Cell) : UInt64.ofInt v.toInt = v.toUInt64 := by
  rw [← UInt64.toBitVec_inj, toBitVec_ofInt, Int64.toBitVec_toUInt64, ← Int64.toInt_toBitVec,
    BitVec.ofInt_toInt]

theorem ofInt_natCast (n : ℕ) : UInt64.ofInt n = UInt64.ofNat n := by
  rw [← UInt64.toBitVec_inj, toBitVec_ofInt, BitVec.ofInt_natCast, UInt64.toBitVec_ofNat']

/-- The larger of two cells, as signed integers. -/
def signedMax (a b : UInt64) : UInt64 :=
  if b.toInt64 < a.toInt64 then a else b

/-- The smaller of two cells, as signed integers. -/
def signedMin (a b : UInt64) : UInt64 :=
  if a.toInt64 < b.toInt64 then a else b

theorem toUInt64_max (v w : Cell) : (max v w).toUInt64 = signedMax v.toUInt64 w.toUInt64 := by
  rw [signedMax, Int64.toInt64_toUInt64, Int64.toInt64_toUInt64]
  show (if v ≤ w then w else v).toUInt64 = _
  by_cases h : v ≤ w
  · rw [if_pos h, if_neg (Int64.not_lt.mpr h)]
  · rw [if_neg h, if_pos (Int64.not_le.mp h)]

theorem toUInt64_min (v w : Cell) : (min v w).toUInt64 = signedMin v.toUInt64 w.toUInt64 := by
  rw [signedMin, Int64.toInt64_toUInt64, Int64.toInt64_toUInt64]
  show (if v ≤ w then v else w).toUInt64 = _
  rcases Int64.lt_or_le v w with h | h
  · rw [if_pos (Int64.le_of_lt h), if_pos h]
  · rw [if_neg (Int64.not_lt.mpr h)]
    split
    · next h' => rw [Int64.le_antisymm h h']
    · rfl

/-! ### What is declared -/

/-- What is declared around an expression over cells. -/
structure Scope where
  integers : Env
  /-- The elements of the arrays, by their subscripts. -/
  element : String → Point → Option UInt64
  function : String → Option (UInt64 → UInt64 → UInt64)

/-- The outcome of evaluating an expression over cells. -/
structure Reading where
  value : UInt64
  /-- The arrays that are subscripted and their subscripts, from left to right. -/
  elements : List (String × Point)
deriving DecidableEq

namespace Reading

/-- An operation on the values of two operands. -/
def combine (op : UInt64 → UInt64 → UInt64) (r s : Reading) : Reading :=
  ⟨op r.value s.value, r.elements ++ s.elements⟩

/-- The opposite value, read from the same elements. -/
def neg (r : Reading) : Reading :=
  ⟨-r.value, r.elements⟩

theorem combine_add_assoc (r s t : Reading) :
    combine (· + ·) (combine (· + ·) r s) t = combine (· + ·) r (combine (· + ·) s t) := by
  simp only [combine, UInt64.add_assoc, List.append_assoc]

theorem combine_add_sub (r s t : Reading) :
    combine (· - ·) (combine (· + ·) r s) t = combine (· + ·) r (combine (· - ·) s t) := by
  simp only [combine, UInt64.sub_eq_add_neg, UInt64.add_assoc, List.append_assoc]

end Reading

/-! ### Expressions -/

namespace Expr

/-- An array and the values of its subscripts. -/
def element? (env : Env) : Expr → Option (String × Point)
  | name x => some (x, [])
  | index a i => do
    let (x, p) ← a.element? env
    return (x, p ++ [← i.eval helperCalls env])
  | _ => none

/-- What an expression that names an element is read as. -/
def readElement? (scope : Scope) (e : Expr) : Option Reading :=
  (e.element? scope.integers).bind fun (x, p) => (scope.element x p).map fun v => ⟨v, [(x, p)]⟩

/-- What an expression over cells is read as. Of the operations only sums, differences and signs are
used on cells. -/
def read? (scope : Scope) : Expr → Option Reading
  | literal n => some ⟨.ofNat n, []⟩
  | name x => readElement? scope (name x)
  | index a i => readElement? scope (index a i)
  | neg e => do return (← e.read? scope).neg
  | binary .add a b => do return .combine (· + ·) (← a.read? scope) (← b.read? scope)
  | binary .sub a b => do return .combine (· - ·) (← a.read? scope) (← b.read? scope)
  | call f a b => do return .combine (← scope.function f) (← a.read? scope) (← b.read? scope)
  | _ => none

variable {scope : Scope} {e f : Expr} {r s : Reading}

theorem read?_add (he : e.read? scope = some r) (hf : f.read? scope = some s) :
    (binary .add e f).read? scope = some (r.combine (· + ·) s) := by
  rw [read?, he, hf]
  rfl

theorem read?_sub (he : e.read? scope = some r) (hf : f.read? scope = some s) :
    (binary .sub e f).read? scope = some (r.combine (· - ·) s) := by
  rw [read?, he, hf]
  rfl

theorem read?_neg (he : e.read? scope = some r) : (neg e).read? scope = some r.neg := by
  rw [read?, he]
  rfl

theorem read?_call {g : String} {op : UInt64 → UInt64 → UInt64} (hg : scope.function g = some op)
    (he : e.read? scope = some r) (hf : f.read? scope = some s) :
    (call g e f).read? scope = some (r.combine op s) := by
  rw [read?, hg, he, hf]
  rfl

/-- The outermost subscript comes last. -/
theorem element?_index {env : Env} {x : String} {p : Point} {v : ℤ}
    (he : e.element? env = some (x, p)) (hf : f.eval helperCalls env = some v) :
    (index e f).element? env = some (x, p ++ [v]) := by
  rw [element?, he, Option.bind_eq_bind, Option.bind_some, hf]
  rfl

theorem read?_element {x : String} {p : Point} {v : UInt64}
    (he : e.element? scope.integers = some (x, p)) (hv : scope.element x p = some v) :
    e.read? scope = some ⟨v, [(x, p)]⟩ := by
  have hread : e.readElement? scope = some ⟨v, [(x, p)]⟩ := by
    simp only [readElement?, he, Option.bind_some, hv, Option.map_some]
  cases e with
  | name => exact hread
  | index => exact hread
  | _ => cases he

end Expr

/-! ### Texts -/

/-- What a text is read as, as an expression over cells. -/
def readText? (scope : Scope) (s : String) : Option Reading := do
  (← parse (← tokens? s)).read? scope

/-- As an operand of operators below the level, the text reads as an expression over cells with this
outcome. -/
def CellDenotes (scope : Scope) (level : ℕ) (s : String) (r : Reading) : Prop :=
  ∃ e, Written level s e ∧ e.read? scope = some r

/-- The text is a sum of operands with this outcome. -/
inductive SumDenotes (scope : Scope) : String → Reading → Prop
  | operand {s : String} {r : Reading} (h : CellDenotes scope 4 s r) : SumDenotes scope s r
  | plus {s t : String} {r r' : Reading} (h : SumDenotes scope s r)
    (h' : CellDenotes scope 4 t r') : SumDenotes scope (s ++ " + " ++ t) (r.combine (· + ·) r')
  | minus {s t : String} {r r' : Reading} (h : SumDenotes scope s r)
    (h' : CellDenotes scope 4 t r') : SumDenotes scope (s ++ " - " ++ t) (r.combine (· - ·) r')

variable {scope : Scope} {level : ℕ} {s t x : String} {r r' : Reading} {p values : Point}

namespace CellDenotes

theorem mono {l : ℕ} (h : CellDenotes scope level s r) (hl : l ≤ level) :
    CellDenotes scope l s r := by
  obtain ⟨e, he, hr⟩ := h
  exact ⟨e, he.mono hl, hr⟩

theorem readText?_eq (h : CellDenotes scope 0 s r) : readText? scope s = some r := by
  obtain ⟨e, he, hr⟩ := h
  obtain ⟨ts, hs, hreads⟩ := he
  rw [readText?, hs, Option.bind_eq_bind, Option.bind_some, hreads.parse_eq, Option.bind_eq_bind,
    Option.bind_some, hr]

theorem parens (h : CellDenotes scope 0 s r) : CellDenotes scope 6 ("(" ++ s ++ ")") r := by
  obtain ⟨e, he, hr⟩ := h
  exact ⟨e, he.parens, hr⟩

theorem call {f : String} {op : UInt64 → UInt64 → UInt64} (hf : IsName f)
    (hop : scope.function f = some op) (h : CellDenotes scope 0 s r)
    (h' : CellDenotes scope 0 t r') :
    CellDenotes scope 6 (f ++ "(" ++ s ++ ", " ++ t ++ ")") (r.combine op r') := by
  obtain ⟨e, he, hr⟩ := h
  obtain ⟨e', he', hr'⟩ := h'
  exact ⟨_, he.call hf he', Expr.read?_call hop hr hr'⟩

/-- A literal is taken modulo 2 ^ 64, with its sign if it has one. -/
theorem int (k : ℤ) : CellDenotes scope 5 (toString k) ⟨.ofInt k, []⟩ := by
  cases k with
  | ofNat n =>
    refine ⟨.literal n, (Written.literal n).mono (by decide), ?_⟩
    rw [Expr.read?, ← ofInt_natCast]
    rfl
  | negSucc n =>
    refine ⟨_, (Written.literal (n + 1)).neg (apart_minus_number (n + 1)), ?_⟩
    rw [Expr.read?_neg rfl, Int.negSucc_eq, UInt64.ofInt_neg, ← Int.natCast_succ, ofInt_natCast]
    rfl

end CellDenotes

namespace SumDenotes

/-- Read from the left, the terms of the right operand are added one after the other. -/
theorem add (h : SumDenotes scope s r) (h' : SumDenotes scope t r') :
    SumDenotes scope (s ++ " + " ++ t) (r.combine (· + ·) r') := by
  -- on the right operand, whose last term is the last one of the whole sum
  induction h' with
  | operand ht => exact plus h ht
  | plus _ ht ih =>
    rw [← Reading.combine_add_assoc, ← String.append_assoc, ← String.append_assoc]
    exact plus ih ht
  | minus _ ht ih =>
    rw [← Reading.combine_add_sub, ← String.append_assoc, ← String.append_assoc]
    exact minus ih ht

theorem cellDenotes (h : SumDenotes scope s r) : CellDenotes scope 3 s r := by
  induction h with
  | operand hs => exact hs.mono (by decide)
  | plus _ ht ih =>
    obtain ⟨e, he, hr⟩ := ih
    obtain ⟨f, hf, hr'⟩ := ht
    exact ⟨_, he.binary separator_plus hf, Expr.read?_add hr hr'⟩
  | minus _ ht ih =>
    obtain ⟨e, he, hr⟩ := ih
    obtain ⟨f, hf, hr'⟩ := ht
    exact ⟨_, he.binary separator_minus hf, Expr.read?_sub hr hr'⟩

theorem parens (h : SumDenotes scope s r) : CellDenotes scope 6 ("(" ++ s ++ ")") r :=
  (h.cellDenotes.mono (Nat.zero_le 3)).parens

theorem call {f : String} {op : UInt64 → UInt64 → UInt64} (hf : IsName f)
    (hop : scope.function f = some op) (h : SumDenotes scope s r) (h' : SumDenotes scope t r') :
    CellDenotes scope 6 (f ++ "(" ++ s ++ ", " ++ t ++ ")") (r.combine op r') :=
  .call hf hop (h.cellDenotes.mono (Nat.zero_le 3)) (h'.cellDenotes.mono (Nat.zero_le 3))

theorem readText?_eq (h : SumDenotes scope s r) : readText? scope s = some r :=
  (h.cellDenotes.mono (Nat.zero_le 3)).readText?_eq

end SumDenotes

end AffineLoops.CText
