import Mathlib.Data.List.SplitBy
/-!
# Lexical elements of C expressions

A text is cut where two neighbouring characters cannot belong to one lexical element. Letters, digits
and underscores make words, the characters of operators make runs, and every other character stands
alone. Only blanks are dropped; a piece that is no element of the expressions read here makes the
text unreadable.

## Main definitions

- `Token`, `tokens?` — the lexical elements, and those of a text
- `Apart` — two texts that can be written one after the other
- `tokens?_append` — the elements of such a pair
- `tokens?_number`, `IsName.tokens?_eq` — written numbers and names are one element each

## Design notes

A run of operator characters is accepted only as a whole, so `a--b` is not read as a difference, and
a number with a leading zero is not read at all, since C takes it as octal.
-/

namespace AffineLoops.CText

/-- The operators with two operands. -/
inductive BinaryOp where
  | mul | div | mod | add | sub | less | greater | atMost | atLeast
deriving DecidableEq

/-- The lexical elements of integer expressions and of the functions that they call. -/
inductive Token where
  | number (value : ℕ)
  | name (text : String)
  | operator (op : BinaryOp)
  | question | colon | comma | semicolon | assign
  | openParen | closeParen | openBracket | closeBracket | openBrace | closeBrace
deriving DecidableEq

/-- What a character can be a part of. -/
inductive CharClass where
  /-- A name or a number. -/
  | word
  | operator
  /-- Nothing larger than itself. -/
  | single
deriving DecidableEq

/-- Letters, digits and underscores make words, signs make operators. -/
def charClass (c : Char) : CharClass :=
  if c.isAlphanum || c == '_' then .word
  else if ['+', '-', '*', '/', '%', '<', '>', '=', '!', '&', '|', '^'].contains c then .operator
  else .single

/-- Two neighbouring characters that belong to one element. -/
def glued (c d : Char) : Bool :=
  charClass c == charClass d && charClass c != .single

/-- The element that a word is: a decimal number or a name. -/
def word? (cs : List Char) : Option Token :=
  if cs.all Char.isDigit then
    if cs.head? = some '0' ∧ cs ≠ ['0'] then none else some (.number (Nat.ofDigitChars 10 cs 0))
  else if cs.head?.any Char.isDigit then none
  else some (.name (String.ofList cs))

/-- The element that a piece without letters and digits is. -/
def punctuator? : List Char → Option Token
  | ['*'] => some (.operator .mul)
  | ['/'] => some (.operator .div)
  | ['%'] => some (.operator .mod)
  | ['+'] => some (.operator .add)
  | ['-'] => some (.operator .sub)
  | ['<'] => some (.operator .less)
  | ['>'] => some (.operator .greater)
  | ['<', '='] => some (.operator .atMost)
  | ['>', '='] => some (.operator .atLeast)
  | ['?'] => some .question
  | [':'] => some .colon
  | [','] => some .comma
  | [';'] => some .semicolon
  | ['='] => some .assign
  | ['('] => some .openParen
  | [')'] => some .closeParen
  | ['['] => some .openBracket
  | [']'] => some .closeBracket
  | ['\x7b'] => some .openBrace
  | ['\x7d'] => some .closeBrace
  | _ => none

/-- The element that a piece of text is. -/
def token? (cs : List Char) : Option Token :=
  if cs.all (charClass · = .word) then word? cs else punctuator? cs

/-- The pieces of a text, without the blanks. -/
def lexemes (cs : List Char) : List (List Char) :=
  (cs.splitBy glued).filter (· ≠ [' '])

/-- The elements of a text. -/
def tokens? (s : String) : Option (List Token) :=
  (lexemes s.toList).mapM token?

/-! ### Texts one after the other -/

/-- No element reaches from the end of the first text into the second one. -/
def Apart (s t : String) : Prop :=
  ∀ c ∈ s.toList.getLast?, ∀ d ∈ t.toList.head?, glued c d = false

/-- A text begins with a character of the class, unless it is empty. -/
def startsWith (k : CharClass) (s : String) : Bool :=
  s.toList.head?.all (charClass · == k)

/-- A text ends with a character of the class, unless it is empty. -/
def endsWith (k : CharClass) (s : String) : Bool :=
  s.toList.getLast?.all (charClass · == k)

variable {s t : String} {ts us : List Token}

theorem tokens?_append (h : Apart s t) (hs : tokens? s = some ts) (ht : tokens? t = some us) :
    tokens? (s ++ t) = some (ts ++ us) := by
  rw [tokens?, lexemes, String.toList_append, List.splitBy_append h, List.filter_append,
    List.mapM_append]
  change (do return (← tokens? s) ++ (← tokens? t)) = _
  rw [hs, ht]
  rfl

section Edges

variable {k l : CharClass} {c : Char}

theorem charClass_head (h : startsWith k s) (hc : c ∈ s.toList.head?) : charClass c = k :=
  beq_iff_eq.mp ((Option.all_eq_true _ _).mp h c hc)

theorem charClass_last (h : endsWith k s) (hc : c ∈ s.toList.getLast?) : charClass c = k :=
  beq_iff_eq.mp ((Option.all_eq_true _ _).mp h c hc)

theorem startsWith_of_forall (h : ∀ c ∈ s.toList, charClass c = k) : startsWith k s :=
  (Option.all_eq_true _ _).mpr fun c hc => beq_iff_eq.mpr (h c (List.mem_of_mem_head? hc))

theorem endsWith_of_forall (h : ∀ c ∈ s.toList, charClass c = k) : endsWith k s :=
  (Option.all_eq_true _ _).mpr fun c hc => beq_iff_eq.mpr (h c (List.mem_of_getLast? hc))

theorem apart_of_startsWith (h : startsWith .single t) : Apart s t := by
  intro c _ d hd
  rw [glued, charClass_head h hd]
  cases charClass c <;> rfl

theorem apart_of_endsWith (h : endsWith .single s) : Apart s t := by
  intro c hc d _
  simp [glued, charClass_last h hc]

/-- The end of a word and that of a run of operators stay apart from the other. -/
theorem apart_of_classes (hs : endsWith k s) (ht : startsWith l t) (h : k ≠ l) : Apart s t := by
  intro c hc d hd
  simp [glued, charClass_last hs hc, charClass_head ht hd, h]

end Edges

theorem apart_append (hne : s.toList ≠ []) {x : String} (h : Apart s t) : Apart (x ++ s) t := by
  intro c hc
  rw [String.toList_append, List.getLast?_append_of_ne_nil _ hne] at hc
  exact h c hc

/-! ### Words -/

theorem tokens?_word {t : Token} (hne : s.toList ≠ []) (hword : ∀ c ∈ s.toList, charClass c = .word)
    (ht : word? s.toList = some t) : tokens? s = some [t] := by
  have hchain : s.toList.IsChain (fun c d => glued c d = true) :=
    List.Pairwise.isChain (List.pairwise_of_forall_mem_list fun c hc d hd => by
      simp [glued, hword c hc, hword d hd])
  have hblank : s.toList ≠ [' '] := by
    intro h
    have := hword ' ' (by simp [h])
    revert this
    decide
  have htoken : token? s.toList = some t := by
    rw [token?, if_pos (by simpa using hword), ht]
  rw [tokens?, lexemes, List.splitBy_of_isChain hne hchain, List.filter_singleton]
  simp [hblank, htoken]

theorem charClass_of_isDigit {c : Char} (h : c.isDigit) : charClass c = .word := by
  rw [charClass, if_pos (by simp [Char.isAlphanum, h])]

theorem toList_toString (n : ℕ) : (toString n).toList = Nat.toDigits 10 n := by
  simp

theorem isDigit_of_mem_toString {n : ℕ} {c : Char} (h : c ∈ (toString n).toList) : c.isDigit := by
  rw [toList_toString] at h
  exact Nat.isDigit_of_mem_toDigits (by omega) (by omega) h

/-- A number other than zero is written without a leading zero. -/
theorem head?_toDigits_ne {n : ℕ} (h : n ≠ 0) : (Nat.toDigits 10 n).head? ≠ some '0' := by
  have hdigit : ∀ m < 10, m ≠ 0 → [m.digitChar].head? ≠ some '0' := by decide
  induction n using Nat.strong_induction_on with
  | _ n ih =>
    by_cases hlt : n < 10
    · rw [Nat.toDigits_of_lt_base hlt]
      exact hdigit n hlt h
    · rw [Nat.toDigits_of_base_le (by omega) (by omega), List.head?_append_of_ne_nil _
        (Nat.toDigits_ne_nil)]
      exact ih (n / 10) (by omega) (by omega)

theorem charClass_of_mem_toString {n : ℕ} {c : Char} (h : c ∈ (toString n).toList) :
    charClass c = .word :=
  charClass_of_isDigit (isDigit_of_mem_toString h)

theorem tokens?_number (n : ℕ) : tokens? (toString n) = some [.number n] := by
  refine tokens?_word (by simp) (fun _ => charClass_of_mem_toString) ?_
  have hdigits : (toString n).toList.all Char.isDigit :=
    List.all_eq_true.mpr fun c hc => isDigit_of_mem_toString hc
  have hzero : ¬((toString n).toList.head? = some '0' ∧ (toString n).toList ≠ ['0']) := by
    rintro ⟨hhead, hne⟩
    rw [toList_toString] at hhead hne
    by_cases hn : n = 0
    · exact hne (by rw [hn]; rfl)
    · exact head?_toDigits_ne hn hhead
  rw [word?, if_pos hdigits, if_neg hzero, toList_toString, Nat.ofDigitChars_ten_toDigits]

/-- Letters, digits and underscores, with no digit in front. -/
structure IsName (x : String) : Prop where
  ne_nil : x.toList ≠ []
  word : x.toList.all (charClass · == .word)
  head : x.toList.head?.any Char.isDigit = false

variable {x : String}

theorem IsName.charClass_eq (h : IsName x) {c : Char} (hc : c ∈ x.toList) : charClass c = .word :=
  beq_iff_eq.mp (List.all_eq_true.mp h.word c hc)

theorem IsName.tokens?_eq (h : IsName x) : tokens? x = some [.name x] := by
  refine tokens?_word h.ne_nil (fun _ => h.charClass_eq) ?_
  obtain ⟨c, cs, hx⟩ := List.exists_cons_of_ne_nil h.ne_nil
  have hc : c.isDigit = false := by simpa [hx] using h.head
  rw [word?, if_neg (by simp [hx, hc]), if_neg (by simp [hx, hc]), String.ofList_toList]

theorem IsName.startsWith_word (h : IsName x) : startsWith .word x :=
  startsWith_of_forall fun _ => h.charClass_eq

end AffineLoops.CText
