import AffineLoops.Proofs.CText.Value
/-!
# What C texts denote

A text denotes a value at a level of binding if it reads there as an expression with this value.
Sums, products and calls denote what their parts denote together, so the value of a printed text is
found along the way it was printed, and agrees with the value of its reading.

## Main definitions

- `value?` — the value of a text read as an expression
- `Written`, `Written.binary`, `Written.call`, … — the expression that a text reads as
- `Denotes` — the value of a text as an operand of operators below a level
- `Denotes.binary`, `Denotes.call`, … — the value of a compound, from those of its parts
- `Denotes.value?_eq` — the value of the whole
-/

namespace AffineLoops.CText

/-- The value of a text read as an expression that may call the functions of the program. -/
def value? (env : Env) (s : String) : Option ℤ := do
  (← parse (← tokens? s)).eval helperCalls env

/-- As an operand of operators below the level, the text reads as an expression with the value. -/
def Denotes (env : Env) (level : ℕ) (s : String) (v : ℤ) : Prop :=
  ∃ ts e, tokens? s = some ts ∧ ReadsAs level ts e ∧ e.eval helperCalls env = some v

/-! ### Separators -/

/-- A text for the given elements that can stand between any others. -/
structure Separator (sep : String) (ts : List Token) : Prop where
  tokens : tokens? sep = some ts
  ne_nil : sep.toList ≠ []
  head : startsWith .single sep
  last : endsWith .single sep

variable {s t sep : String} {ts us seps : List Token}

theorem tokens?_separated (hsep : Separator sep seps) (hs : tokens? s = some ts)
    (ht : tokens? t = some us) : tokens? (s ++ sep ++ t) = some (ts ++ seps ++ us) :=
  tokens?_append (apart_append hsep.ne_nil (apart_of_endsWith hsep.last))
    (tokens?_append (apart_of_startsWith hsep.head) hs hsep.tokens) ht

theorem separator_plus : Separator " + " [.operator .add] :=
  ⟨by decide, by decide, by decide, by decide⟩

theorem separator_minus : Separator " - " [.operator .sub] :=
  ⟨by decide, by decide, by decide, by decide⟩

theorem separator_slash : Separator " / " [.operator .div] :=
  ⟨by decide, by decide, by decide, by decide⟩

theorem separator_comma : Separator ", " [.comma] :=
  ⟨by decide, by decide, by decide, by decide⟩

theorem separator_open : Separator "(" [.openParen] :=
  ⟨by decide, by decide, by decide, by decide⟩

theorem separator_close : Separator ")" [.closeParen] :=
  ⟨by decide, by decide, by decide, by decide⟩

theorem separator_openBracket : Separator "[" [.openBracket] :=
  ⟨by decide, by decide, by decide, by decide⟩

theorem separator_closeBracket : Separator "]" [.closeBracket] :=
  ⟨by decide, by decide, by decide, by decide⟩

/-! ### Written expressions -/

/-- As an operand of operators below the level, the text reads as the expression. -/
def Written (level : ℕ) (s : String) (e : Expr) : Prop :=
  ∃ ts, tokens? s = some ts ∧ ReadsAs level ts e

namespace Written

variable {level : ℕ} {e f : Expr}

theorem mono {l : ℕ} (h : Written level s e) (hl : l ≤ level) : Written l s e := by
  obtain ⟨ts, hs, hreads⟩ := h
  exact ⟨ts, hs, hreads.mono hl⟩

theorem literal (n : ℕ) : Written 6 (toString n) (.literal n) :=
  ⟨_, tokens?_number n, .literal n⟩

theorem name {x : String} (hx : IsName x) : Written 6 x (.name x) :=
  ⟨_, hx.tokens?_eq, .name x⟩

theorem neg (h : Written 6 s e) (hs : Apart "-" s) : Written 5 ("-" ++ s) (.neg e) := by
  obtain ⟨ts, htokens, hreads⟩ := h
  have hminus : tokens? "-" = some [.operator .sub] := by decide
  exact ⟨_, tokens?_append hs hminus htokens, hreads.neg⟩

/-- Two operands with an operator between them, written so that it stays apart from both. -/
theorem binary_apart (op : BinaryOp) (he : Written op.level s e) (hf : Written (op.level + 1) t f)
    (hsep : tokens? sep = some [.operator op]) (hleft : Apart s sep) (hright : Apart (s ++ sep) t) :
    Written op.level (s ++ sep ++ t) (.binary op e f) := by
  obtain ⟨ts, hs, hreads⟩ := he
  obtain ⟨us, ht, hreads'⟩ := hf
  refine ⟨_, tokens?_append hright (tokens?_append hleft hs hsep) ht, ?_⟩
  simpa using hreads.binary hreads'

theorem binary {op : BinaryOp} (hsep : Separator sep [.operator op]) (he : Written op.level s e)
    (hf : Written (op.level + 1) t f) : Written op.level (s ++ sep ++ t) (.binary op e f) :=
  binary_apart op he hf hsep.tokens (apart_of_startsWith hsep.head)
    (apart_append hsep.ne_nil (apart_of_endsWith hsep.last))

theorem parens (h : Written 0 s e) : Written 6 ("(" ++ s ++ ")") e := by
  obtain ⟨ts, hs, hreads⟩ := h
  have hopen := tokens?_append (apart_of_endsWith separator_open.last) separator_open.tokens hs
  exact ⟨_, tokens?_append (apart_of_startsWith separator_close.head) hopen separator_close.tokens,
    hreads.parens⟩

theorem call {g : String} (hg : IsName g) (he : Written 0 s e) (hf : Written 0 t f) :
    Written 6 (g ++ "(" ++ s ++ ", " ++ t ++ ")") (.call g e f) := by
  obtain ⟨ts, hs, hreads⟩ := he
  obtain ⟨us, ht, hreads'⟩ := hf
  have hopen := tokens?_separated separator_open hg.tokens?_eq hs
  have hboth := tokens?_separated separator_comma hopen ht
  refine ⟨_, tokens?_append (apart_of_startsWith separator_close.head) hboth
    separator_close.tokens, ?_⟩
  simpa using hreads.call g hreads'

theorem index (he : Written 6 s e) (hf : Written 0 t f) :
    Written 6 (s ++ "[" ++ t ++ "]") (.index e f) := by
  obtain ⟨ts, hs, hreads⟩ := he
  obtain ⟨us, ht, hreads'⟩ := hf
  have hopen := tokens?_separated separator_openBracket hs ht
  refine ⟨_, tokens?_append (apart_of_startsWith separator_closeBracket.head) hopen
    separator_closeBracket.tokens, ?_⟩
  simpa using hreads.index hreads'

/-- Nothing is read from an empty text. -/
theorem isEmpty_eq_false (h : Written level s e) : s.isEmpty = false := by
  obtain ⟨ts, hs, hreads⟩ := h
  by_contra hempty
  obtain rfl : s = "" := String.isEmpty_iff.mp (by simpa using hempty)
  have hnil : tokens? "" = some [] := by decide
  obtain rfl : ts = [] := Option.some.inj (hs.symm.trans hnil)
  obtain ⟨ps, e', hrun, -⟩ := hreads [] waits_nil
  cases hrun

end Written

/-! ### Values of expressions -/

namespace Denotes

variable {env : Env} {level : ℕ} {a b v : ℤ}

theorem iff_written :
    Denotes env level s v ↔ ∃ e, Written level s e ∧ e.eval helperCalls env = some v := by
  constructor
  · rintro ⟨ts, e, hs, hreads, hv⟩
    exact ⟨e, ⟨ts, hs, hreads⟩, hv⟩
  · rintro ⟨e, ⟨ts, hs, hreads⟩, hv⟩
    exact ⟨ts, e, hs, hreads, hv⟩

theorem of_written {e : Expr} (h : Written level s e) (hv : e.eval helperCalls env = some v) :
    Denotes env level s v :=
  iff_written.mpr ⟨e, h, hv⟩

theorem mono {l : ℕ} (h : Denotes env level s v) (hl : l ≤ level) : Denotes env l s v := by
  obtain ⟨e, hs, hv⟩ := iff_written.mp h
  exact of_written (hs.mono hl) hv

theorem literal (n : ℕ) : Denotes env 6 (toString n) n :=
  of_written (.literal n) rfl

theorem name {x : String} (hx : IsName x) (hv : env.lookup x = some v) : Denotes env 6 x v :=
  of_written (.name hx) hv

theorem neg (h : Denotes env 6 s v) (hs : Apart "-" s) : Denotes env 5 ("-" ++ s) (-v) := by
  obtain ⟨e, he, hv⟩ := iff_written.mp h
  exact of_written (he.neg hs) (Expr.eval_neg hv)

/-- Two operands with an operator between them, written so that it stays apart from both. -/
theorem binary_apart (op : BinaryOp) (ha : Denotes env op.level s a)
    (hb : Denotes env (op.level + 1) t b) (hsep : tokens? sep = some [.operator op])
    (hleft : Apart s sep) (hright : Apart (s ++ sep) t) (hv : op.eval a b = some v) :
    Denotes env op.level (s ++ sep ++ t) v := by
  obtain ⟨e, he, hea⟩ := iff_written.mp ha
  obtain ⟨f, hf, hfb⟩ := iff_written.mp hb
  exact of_written (he.binary_apart op hf hsep hleft hright) ((Expr.eval_binary hea hfb).trans hv)

theorem binary {op : BinaryOp} (hsep : Separator sep [.operator op])
    (ha : Denotes env op.level s a) (hb : Denotes env (op.level + 1) t b)
    (hv : op.eval a b = some v) : Denotes env op.level (s ++ sep ++ t) v :=
  binary_apart op ha hb hsep.tokens (apart_of_startsWith hsep.head)
    (apart_append hsep.ne_nil (apart_of_endsWith hsep.last)) hv

theorem add (ha : Denotes env 3 s a) (hb : Denotes env 4 t b) :
    Denotes env 3 (s ++ " + " ++ t) (a + b) :=
  binary separator_plus ha hb rfl

theorem sub (ha : Denotes env 3 s a) (hb : Denotes env 4 t b) :
    Denotes env 3 (s ++ " - " ++ t) (a - b) :=
  binary separator_minus ha hb rfl

theorem div (ha : Denotes env 4 s a) (hb : Denotes env 5 t b) (hne : b ≠ 0) :
    Denotes env 4 (s ++ " / " ++ t) (a.tdiv b) :=
  binary separator_slash ha hb (if_neg hne)

theorem parens (h : Denotes env 0 s v) : Denotes env 6 ("(" ++ s ++ ")") v := by
  obtain ⟨e, he, hv⟩ := iff_written.mp h
  exact of_written he.parens hv

theorem call {f : String} (hf : IsName f) (ha : Denotes env 0 s a) (hb : Denotes env 0 t b)
    (hv : helperCalls f a b = some v) :
    Denotes env 6 (f ++ "(" ++ s ++ ", " ++ t ++ ")") v := by
  obtain ⟨e, he, hea⟩ := iff_written.mp ha
  obtain ⟨e', he', heb⟩ := iff_written.mp hb
  exact of_written (he.call hf he') ((Expr.eval_call hea heb).trans hv)

theorem isEmpty_eq_false (h : Denotes env level s v) : s.isEmpty = false := by
  obtain ⟨e, he, -⟩ := iff_written.mp h
  exact he.isEmpty_eq_false

theorem value?_eq (h : Denotes env 0 s v) : value? env s = some v := by
  obtain ⟨ts, e, hs, hreads, hv⟩ := h
  simp only [value?, hs, Option.bind_eq_bind, Option.bind_some, hreads.parse_eq, hv]

/-- Products go before sums, and operators of one kind from the left. -/
example : value? [("x", -3)] "7 - 2 - -x*2 % 4" = some 3 := by decide +kernel

end Denotes

end AffineLoops.CText
