import AffineLoops.Case.Program
import AffineLoops.Proofs.CText.Parse
import AffineLoops.Proofs.Nest.Bound
/-!
# Values of C expressions

Expressions are evaluated on exact integers: division and remainder round toward zero, a comparison
is 1 or 0, and only the chosen branch of a conditional is evaluated. The functions that an expression
calls are those that the program text itself defines, read from their lines; the body of a function
can call the functions of the lines before it.

## Main definitions

- `Expr.eval` — the value of an expression
- `Function.parse?`, `Function.apply` — a function as its line defines it
- `helperCalls` — the functions on signed integers that every program starts with
- `helperCalls_floord`, … — what these functions compute
-/

namespace AffineLoops.CText

/-- The values of the variables in scope, the innermost declaration first. -/
abbrev Env := List (String × ℤ)

/-- The functions of two arguments that can be called. -/
abbrev Calls := String → ℤ → ℤ → Option ℤ

/-- The value of an operation; there is none for a division by zero. -/
def BinaryOp.eval (op : BinaryOp) (a b : ℤ) : Option ℤ :=
  match op with
  | mul => some (a * b)
  | div => if b = 0 then none else some (a.tdiv b)
  | mod => if b = 0 then none else some (a.tmod b)
  | add => some (a + b)
  | sub => some (a - b)
  | less => some (if a < b then 1 else 0)
  | greater => some (if b < a then 1 else 0)
  | atMost => some (if a ≤ b then 1 else 0)
  | atLeast => some (if b ≤ a then 1 else 0)

/-- The value of an expression, if all names are in scope. There are no arrays here. -/
def Expr.eval (calls : Calls) (env : Env) : Expr → Option ℤ
  | literal n => some n
  | name x => env.lookup x
  | neg e => do return -(← e.eval calls env)
  | binary op a b => do op.eval (← a.eval calls env) (← b.eval calls env)
  | conditional c a b => do
    if (← c.eval calls env) ≠ 0 then a.eval calls env else b.eval calls env
  | call f a b => do calls f (← a.eval calls env) (← b.eval calls env)
  | index _ _ => none

namespace Expr

variable {calls : Calls} {env : Env} {e f : Expr} {x y : ℤ}

theorem eval_neg (h : e.eval calls env = some x) : (neg e).eval calls env = some (-x) := by
  rw [eval, h]
  rfl

theorem eval_binary {op : BinaryOp} (he : e.eval calls env = some x)
    (hf : f.eval calls env = some y) : (binary op e f).eval calls env = op.eval x y := by
  rw [eval, he, hf]
  rfl

theorem eval_call {g : String} (he : e.eval calls env = some x) (hf : f.eval calls env = some y) :
    (call g e f).eval calls env = calls g x y := by
  rw [eval, he, hf]
  rfl

end Expr

/-! ### Functions -/

/-- A function of two signed integers: declarations with initial values, then a result. -/
structure Function where
  name : String
  first : String
  second : String
  locals : List (String × Expr)
  result : Expr
deriving DecidableEq

namespace Function

/-- The value of a function, given those that it can call. -/
def apply (f : Function) (calls : Calls) (a b : ℤ) : Option ℤ := do
  let declare (env : Env) (entry : String × Expr) : Option Env := do
    return (entry.1, ← entry.2.eval calls env) :: env
  f.result.eval calls (← f.locals.foldlM declare [(f.first, a), (f.second, b)])

/-- A name declared as a signed integer, and what follows it. -/
def declared? : List Token → Option (String × List Token)
  | .name "long" :: .name "long" :: .name x :: ts => some (x, ts)
  | _ => none

/-- The declarations and the result of a body, from its statements. -/
def body? : List (List Token) → Option (List (String × Expr) × Expr)
  | [.name "return" :: ts, [.closeBrace]] => do return ([], ← parse ts)
  | statement :: statements => do
    let (x, ts) ← declared? statement
    match ts with
    | .assign :: ts =>
      let e ← parse ts
      let (locals, result) ← body? statements
      return ((x, e) :: locals, result)
    | _ => none
  | [] => none

/-- A function on signed integers, from its elements. -/
def ofTokens? (ts : List Token) : Option Function := do
  let ts ← ts.dropPrefix? [.name "static", .name "inline"]
  let (f, ts) ← declared? ts
  let (a, ts) ← declared? (← ts.dropPrefix? [.openParen])
  let (b, ts) ← declared? (← ts.dropPrefix? [.comma])
  let (locals, result) ← body? ((← ts.dropPrefix? [.closeParen, .openBrace]).splitOn .semicolon)
  return ⟨f, a, b, locals, result⟩

/-- The function that a line defines, if both of its arguments and its result are signed integers. -/
def parse? (line : String) : Option Function :=
  (tokens? line).bind ofTokens?

/-- A literal is made of its characters, so a line can be read without decoding it. -/
theorem parse?_ofList {cs : List Char} :
    parse? (String.ofList cs) = ((lexemes cs).mapM token?).bind ofTokens? := by
  rw [parse?, tokens?, String.toList_ofList]

end Function

/-- The functions after one more definition. -/
def Calls.define (calls : Calls) (f : Function) : Calls :=
  fun name a b => if name = f.name then f.apply calls a b else calls name a b

/-- The functions that a sequence of definitions makes, each of them for those that follow. -/
def definedBy (fs : List Function) : Calls :=
  fs.foldl Calls.define fun _ _ _ => none

/-! ### The functions that bounds call -/

/-- The functions on signed integers that every program defines. -/
def helperCalls : Calls :=
  definedBy (CProgram.helpers.filterMap Function.parse?)

/-- The quotient rounded down, by a division that truncates. -/
def floordFunction : Function where
  name := "floord"
  first := "n"
  second := "d"
  locals := []
  result := .conditional (.binary .atLeast (.name "n") (.literal 0))
    (.binary .div (.name "n") (.name "d"))
    (.neg (.binary .div (.binary .sub (.binary .add (.neg (.name "n")) (.name "d")) (.literal 1))
      (.name "d")))

/-- The quotient rounded up, as the opposite of one rounded down. -/
def ceildFunction : Function where
  name := "ceild"
  first := "n"
  second := "d"
  locals := []
  result := .neg (.call "floord" (.neg (.name "n")) (.name "d"))

/-- The remainder that is not negative. -/
def pmodFunction : Function where
  name := "pmod"
  first := "a"
  second := "m"
  locals := [("r", .binary .mod (.name "a") (.name "m"))]
  result := .conditional (.binary .less (.name "r") (.literal 0))
    (.binary .add (.name "r") (.name "m")) (.name "r")

/-- The function that chooses one of its arguments by a comparison. -/
def choiceFunction (name : String) (comparison : BinaryOp) : Function where
  name := name
  first := "a"
  second := "b"
  locals := []
  result := .conditional (.binary comparison (.name "a") (.name "b")) (.name "a") (.name "b")

/-- The lines of the program text that are about signed integers, as they are read. -/
theorem parse?_helpers : CProgram.helpers.filterMap Function.parse? =
    [floordFunction, ceildFunction, pmodFunction, choiceFunction "max" .greater,
      choiceFunction "min" .less] := by
  have next {cs : List Char} {lines : List String} {f : Function} {fs : List Function}
      (hf : ((lexemes cs).mapM token?).bind Function.ofTokens? = some f)
      (hfs : lines.filterMap Function.parse? = fs) :
      (String.ofList cs :: lines).filterMap Function.parse? = f :: fs := by
    rw [List.filterMap_cons_some (Function.parse?_ofList.trans hf), hfs]
  have skip {cs : List Char} {lines : List String} {fs : List Function}
      (hf : ((lexemes cs).mapM token?).bind Function.ofTokens? = none)
      (hfs : lines.filterMap Function.parse? = fs) :
      (String.ofList cs :: lines).filterMap Function.parse? = fs := by
    rw [List.filterMap_cons_none (Function.parse?_ofList.trans hf), hfs]
  unfold CProgram.helpers
  refine next (by decide +kernel) (next (by decide +kernel) (next (by decide +kernel) ?_))
  refine next (by decide +kernel) (next (by decide +kernel) ?_)
  exact skip (by decide +kernel) (skip (by decide +kernel) rfl)

/-! ### What they compute -/

/-- A quotient rounded toward zero, corrected for a negative dividend, is rounded down. -/
theorem floor_quotient_eq {n d : ℤ} (hd : 0 < d) :
    Rounding.floor.quotient n d = if 0 ≤ n then n.tdiv d else -((-n + d - 1).tdiv d) := by
  split
  · next hn => rw [Rounding.quotient, Int.fdiv_eq_ediv_of_nonneg n hd.le, Int.tdiv_eq_ediv_of_nonneg hn]
  · next hn =>
    rw [Int.tdiv_eq_ediv_of_nonneg (by omega)]
    have hrem := Int.emod_add_mul_ediv (-n + d - 1) d
    have hlt := Int.emod_lt_of_pos (-n + d - 1) hd
    have hfloor := (Rounding.le_floor_iff (a := n) hd).mp le_rfl
    apply le_antisymm
    · have hceil : (-n + d - 1) / d < -Rounding.floor.quotient n d + 1 := by
        rw [Int.ediv_lt_iff_lt_mul hd, Int.add_mul, Int.neg_mul]
        omega
      omega
    · rw [Rounding.le_floor_iff hd, Int.neg_mul, Int.mul_comm]
      omega

variable {n d m : ℤ}

theorem floordFunction_apply (calls : Calls) (hd : 0 < d) :
    floordFunction.apply calls n d = some (Rounding.floor.quotient n d) := by
  rw [floor_quotient_eq hd]
  by_cases hn : 0 ≤ n <;>
    simp [floordFunction, Function.apply, Expr.eval, BinaryOp.eval, List.lookup_cons, hn, hd.ne']

theorem ceildFunction_apply {calls : Calls}
    (hcall : calls "floord" (-n) d = some (Rounding.floor.quotient (-n) d)) :
    ceildFunction.apply calls n d = some (Rounding.ceil.quotient n d) := by
  simp [ceildFunction, Function.apply, Expr.eval, List.lookup_cons, hcall, Rounding.quotient]

/-- A remainder with the sign of the dividend, corrected where that is negative. -/
theorem residue_eq (hm : 0 < m) :
    residue n m = if n.tmod m < 0 then n.tmod m + m else n.tmod m := by
  have hnonneg := Int.emod_nonneg n hm.ne'
  have hlt := Int.emod_lt_of_pos n hm
  have hrem := Int.emod_eq_tmod (a := n) (b := m)
  rw [residue]
  split at hrem <;> split <;> omega

theorem pmodFunction_apply (calls : Calls) (hm : 0 < m) :
    pmodFunction.apply calls n m = some (residue n m) := by
  rw [residue_eq hm]
  by_cases hn : n.tmod m < 0 <;>
    simp [pmodFunction, Function.apply, Expr.eval, BinaryOp.eval, List.lookup_cons, hn, hm.ne']

theorem choiceFunction_greater_apply (calls : Calls) (name : String) :
    (choiceFunction name .greater).apply calls n m = some (max n m) := by
  rw [max_def]
  by_cases hn : m < n <;>
    simp [choiceFunction, Function.apply, Expr.eval, BinaryOp.eval, List.lookup_cons, hn]

theorem choiceFunction_less_apply (calls : Calls) (name : String) :
    (choiceFunction name .less).apply calls n m = some (min n m) := by
  rw [min_comm, min_def]
  by_cases hn : n < m <;>
    simp [choiceFunction, Function.apply, Expr.eval, BinaryOp.eval, List.lookup_cons, hn]

theorem helperCalls_floord (hd : 0 < d) :
    helperCalls "floord" n d = some (Rounding.floor.quotient n d) := by
  rw [helperCalls, parse?_helpers]
  exact floordFunction_apply _ hd

theorem helperCalls_ceild (hd : 0 < d) :
    helperCalls "ceild" n d = some (Rounding.ceil.quotient n d) := by
  rw [helperCalls, parse?_helpers]
  exact ceildFunction_apply (floordFunction_apply _ hd)

theorem helperCalls_pmod (hm : 0 < m) : helperCalls "pmod" n m = some (residue n m) := by
  rw [helperCalls, parse?_helpers]
  exact pmodFunction_apply _ hm

theorem helperCalls_max : helperCalls "max" n m = some (max n m) := by
  rw [helperCalls, parse?_helpers]
  exact choiceFunction_greater_apply _ _

theorem helperCalls_min : helperCalls "min" n m = some (min n m) := by
  rw [helperCalls, parse?_helpers]
  exact choiceFunction_less_apply _ _

end AffineLoops.CText
