import AffineLoops.Proofs.CText.Token
/-!
# Reading C expressions

Expressions are read from left to right with a stack of what is still open. Before an operator, the
open operators that bind at least as tightly take their operands, so products group before sums and
operators of one kind group to the left. A bracket, a comma and a colon close everything up to what
they belong to.

## Main definitions

- `Expr`, `parse` — expressions, and the reading of a list of elements
- `ReadsAs` — elements that read as one operand of operators below a level
- `ReadsAs.binary`, `ReadsAs.call`, … — the reading of a compound, from those of its parts
- `ReadsAs.parse_eq` — the reading of the whole

## Design notes

Levels of binding, as C has them: 0 for the branches of a conditional, 1 for its condition, 2 for
comparisons, 3 for sums, 4 for products, 5 for a sign, 6 for calls and subscripts.
-/

namespace AffineLoops.CText

/-- Expressions over named integers and functions of two arguments. -/
inductive Expr where
  | literal (value : ℕ)
  | name (x : String)
  | neg (e : Expr)
  | binary (op : BinaryOp) (a b : Expr)
  | conditional (c a b : Expr)
  | call (f : String) (a b : Expr)
  | index (a i : Expr)
deriving DecidableEq

/-- How closely an operator binds: the higher level comes first. -/
def BinaryOp.level : BinaryOp → ℕ
  | mul | div | mod => 4
  | add | sub => 3
  | less | greater | atMost | atLeast => 2

/-- Something that has been begun and waits for the expression after it. -/
inductive Pending where
  | neg
  | binary (op : BinaryOp) (left : Expr)
  | parenthesis
  | subscript (base : Expr)
  | firstArgument (f : String)
  | secondArgument (f : String) (first : Expr)
  | afterQuestion (condition : Expr)
  | afterColon (condition yes : Expr)

/-- What an operator makes of its last operand, and the level at which it binds it. What a bracket or
a colon ends is not completed by an operand. -/
def Pending.complete? (operand : Expr) : Pending → Option (ℕ × Expr)
  | neg => some (5, .neg operand)
  | binary op left => some (op.level, .binary op left operand)
  | afterColon c a => some (0, .conditional c a operand)
  | _ => none

/-- Completes the open operators that bind at least at the given level. -/
def reduce (level : ℕ) : List Pending → Expr → List Pending × Expr
  | [], e => ([], e)
  | p :: ps, e =>
    match p.complete? e with
    | some (l, e') => if level ≤ l then reduce level ps e' else (p :: ps, e)
    | none => (p :: ps, e)

/-- What is open, innermost first, and the operand after it if that has been read. -/
structure Reader where
  pending : List Pending
  operand : Option Expr

/-- Reads an element where an operand is due. -/
def begin? (ps : List Pending) : Token → Option Reader
  | .number n => some ⟨ps, some (.literal n)⟩
  | .name x => some ⟨ps, some (.name x)⟩
  | .operator .sub => some ⟨.neg :: ps, none⟩
  | .openParen => some ⟨.parenthesis :: ps, none⟩
  | _ => none

/-- Reads an element after an operand. -/
def continue? (ps : List Pending) (e : Expr) : Token → Option Reader
  | .operator op =>
    let (ps, e) := reduce op.level ps e
    some ⟨.binary op e :: ps, none⟩
  | .question =>
    let (ps, e) := reduce 1 ps e
    some ⟨.afterQuestion e :: ps, none⟩
  | .colon =>
    match reduce 0 ps e with
    | (.afterQuestion c :: ps, e) => some ⟨.afterColon c e :: ps, none⟩
    | _ => none
  | .openParen =>
    match reduce 6 ps e with
    | (ps, .name f) => some ⟨.firstArgument f :: ps, none⟩
    | _ => none
  | .comma =>
    match reduce 0 ps e with
    | (.firstArgument f :: ps, e) => some ⟨.secondArgument f e :: ps, none⟩
    | _ => none
  | .closeParen =>
    match reduce 0 ps e with
    | (.parenthesis :: ps, e) => some ⟨ps, some e⟩
    | (.secondArgument f a :: ps, e) => some ⟨ps, some (.call f a e)⟩
    | _ => none
  | .openBracket =>
    let (ps, e) := reduce 6 ps e
    some ⟨.subscript e :: ps, none⟩
  | .closeBracket =>
    match reduce 0 ps e with
    | (.subscript a :: ps, e) => some ⟨ps, some (.index a e)⟩
    | _ => none
  | _ => none

/-- Reads one element. -/
def step (r : Reader) (t : Token) : Option Reader :=
  match r.operand with
  | none => begin? r.pending t
  | some e => continue? r.pending e t

/-- The expression that a list of elements is. -/
def parse (ts : List Token) : Option Expr := do
  let r ← ts.foldlM step ⟨[], none⟩
  match reduce 0 r.pending (← r.operand) with
  | ([], e) => some e
  | _ => none

/-! ### Operands of operators below a level -/

variable {level : ℕ} {ps : List Pending} {ts us : List Token} {e a b : Expr}

/-- No open operator would be completed at the level. -/
def Waits (level : ℕ) (ps : List Pending) : Prop :=
  ∀ q, level ≤ q → ∀ e, reduce q ps e = (ps, e)

/-- Where no open operator binds at the level, the elements read as the expression: what is left open
after them is completed by every operator up to the level as if the expression had been one operand. -/
def ReadsAs (level : ℕ) (ts : List Token) (e : Expr) : Prop :=
  ∀ ps, Waits level ps → ∃ ps' e', ts.foldlM step ⟨ps, none⟩ = some ⟨ps', some e'⟩ ∧
    ∀ q ≤ level, reduce q ps' e' = reduce q ps e

theorem waits_nil : Waits level [] :=
  fun _ _ _ => rfl

/-- What only a bracket or a colon ends waits at every level. -/
theorem waits_of_complete?_eq_none {p : Pending} (h : ∀ e, p.complete? e = none) :
    Waits level (p :: ps) := by
  intro q _ e
  rw [reduce, h]

theorem waits_of_complete?_lt {p : Pending} {l : ℕ} {f : Expr → Expr}
    (h : ∀ e, p.complete? e = some (l, f e)) (hl : l < level) : Waits level (p :: ps) := by
  intro q hq e
  rw [reduce, h]
  exact if_neg (by omega)

theorem reduce_of_le {p : Pending} {l q : ℕ} {e' : Expr} (h : p.complete? e = some (l, e'))
    (hq : q ≤ l) : reduce q (p :: ps) e = reduce q ps e' := by
  rw [reduce, h]
  exact if_pos hq

namespace ReadsAs

theorem mono {l : ℕ} (h : ReadsAs level ts e) (hl : l ≤ level) : ReadsAs l ts e := by
  intro ps hps
  obtain ⟨ps', e', hrun, hreduce⟩ := h ps fun q hq => hps q (hl.trans hq)
  exact ⟨ps', e', hrun, fun q hq => hreduce q (hq.trans hl)⟩

/-- The elements of an operand leave the reader where a bracket or a colon closes what was open
before them. -/
theorem closes (h : ReadsAs 0 ts e) (p : Pending) (ps : List Pending)
    (hp : ∀ e, p.complete? e = none) :
    ∃ ps' e', ts.foldlM step ⟨p :: ps, none⟩ = some ⟨ps', some e'⟩ ∧
      reduce 0 ps' e' = (p :: ps, e) := by
  obtain ⟨ps', e', hrun, hreduce⟩ := h (p :: ps) (waits_of_complete?_eq_none hp)
  refine ⟨ps', e', hrun, ?_⟩
  rw [hreduce 0 le_rfl, reduce, hp]

theorem literal (n : ℕ) : ReadsAs 6 [.number n] (.literal n) :=
  fun ps _ => ⟨ps, _, rfl, fun _ _ => rfl⟩

theorem name (x : String) : ReadsAs 6 [.name x] (.name x) :=
  fun ps _ => ⟨ps, _, rfl, fun _ _ => rfl⟩

theorem neg (h : ReadsAs 6 ts e) : ReadsAs 5 (.operator .sub :: ts) (.neg e) := by
  intro ps _
  obtain ⟨ps', e', hrun, hreduce⟩ :=
    h (.neg :: ps) (waits_of_complete?_lt (fun _ => rfl) (by omega))
  refine ⟨ps', e', hrun, fun q hq => ?_⟩
  rw [hreduce q (by omega), reduce_of_le rfl hq]

/-- The left operand may be made by operators of the same level, the right one may not. -/
theorem binary {op : BinaryOp} (ha : ReadsAs op.level ts a) (hb : ReadsAs (op.level + 1) us b) :
    ReadsAs op.level (ts ++ .operator op :: us) (.binary op a b) := by
  intro ps hps
  obtain ⟨ps₁, e₁, hrun₁, hreduce₁⟩ := ha ps hps
  have hleft : reduce op.level ps₁ e₁ = (ps, a) := by
    rw [hreduce₁ op.level le_rfl, hps op.level le_rfl]
  obtain ⟨ps₂, e₂, hrun₂, hreduce₂⟩ :=
    hb (.binary op a :: ps) (waits_of_complete?_lt (fun _ => rfl) (Nat.lt_succ_self _))
  refine ⟨ps₂, e₂, ?_, fun q hq => ?_⟩
  · rw [List.foldlM_append, hrun₁]
    simp only [Option.bind_eq_bind, Option.bind_some, List.foldlM_cons, step, continue?, hleft]
    exact hrun₂
  · rw [hreduce₂ q (by omega), reduce_of_le rfl hq]

theorem parens (h : ReadsAs 0 ts e) : ReadsAs 6 (.openParen :: ts ++ [.closeParen]) e := by
  intro ps _
  obtain ⟨ps', e', hrun, hreduce⟩ := h.closes .parenthesis ps fun _ => rfl
  refine ⟨ps, e, ?_, fun _ _ => rfl⟩
  rw [List.foldlM_append]
  change (ts.foldlM step ⟨.parenthesis :: ps, none⟩ >>= _) = _
  rw [hrun]
  simp [step, continue?, hreduce]

theorem call (f : String) (ha : ReadsAs 0 ts a) (hb : ReadsAs 0 us b) :
    ReadsAs 6 (.name f :: .openParen :: ts ++ .comma :: us ++ [.closeParen]) (.call f a b) := by
  intro ps hps
  obtain ⟨ps₁, e₁, hrun₁, hreduce₁⟩ := ha.closes (.firstArgument f) ps fun _ => rfl
  obtain ⟨ps₂, e₂, hrun₂, hreduce₂⟩ := hb.closes (.secondArgument f a) ps fun _ => rfl
  refine ⟨ps, _, ?_, fun _ _ => rfl⟩
  simp [List.foldlM_append, step, begin?, continue?, hps 6 le_rfl, hrun₁, hreduce₁, hrun₂, hreduce₂]

theorem index (ha : ReadsAs 6 ts a) (hi : ReadsAs 0 us b) :
    ReadsAs 6 (ts ++ .openBracket :: us ++ [.closeBracket]) (.index a b) := by
  intro ps hps
  obtain ⟨ps₁, e₁, hrun₁, hreduce₁⟩ := ha ps hps
  have hbase : reduce 6 ps₁ e₁ = (ps, a) := by rw [hreduce₁ 6 le_rfl, hps 6 le_rfl]
  obtain ⟨ps₂, e₂, hrun₂, hreduce₂⟩ := hi.closes (.subscript a) ps fun _ => rfl
  refine ⟨ps, _, ?_, fun _ _ => rfl⟩
  simp [List.foldlM_append, step, continue?, hrun₁, hbase, hrun₂, hreduce₂]

theorem parse_eq (h : ReadsAs 0 ts e) : parse ts = some e := by
  obtain ⟨ps', e', hrun, hreduce⟩ := h [] waits_nil
  rw [parse, hrun]
  simp [hreduce 0 le_rfl, reduce]

end ReadsAs

end AffineLoops.CText
