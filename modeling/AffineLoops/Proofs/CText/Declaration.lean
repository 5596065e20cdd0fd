import AffineLoops.Proofs.CText.Array
import AffineLoops.Proofs.CText.Cell
/-!
# Definitions of arrays

The definition of a constant array is read from left to right: its declarator, and then an
initialiser with a stack of the braces that are open. Line breaks count as blanks. Before a closing
brace there may be a comma, but between two braces there has to be an initialiser.

## Main definitions

- `InitializerReader`, `InitializerReader.step?` — the reading of an initialiser
- `Reads` — what a part of an initialiser adds to what has been read before it
- `declaredArray?` — the array that a text defines
- `declaredArray?_definitionText` — the text of an array that is written in rows
-/

namespace AffineLoops.CText

/-! ### Reading initialisers -/

/-- What has to come next in an initialiser. -/
inductive Awaited where
  | initializer
  /-- The number after a sign. -/
  | magnitude
  /-- A comma or the end. -/
  | separator
  | nothing

/-- How far an initialiser has been read. -/
structure InitializerReader where
  /-- What has been read in every open brace, the innermost one first, and in each the last
  initialiser first. -/
  levels : List (List Initializer)
  awaited : Awaited

/-- The reading of one more element. A closing brace turns what has been read since the brace was
opened into one initialiser of the list around it. -/
def InitializerReader.step? : InitializerReader → Token → Option InitializerReader
  | ⟨levels, .initializer⟩, .openBrace => some ⟨[] :: levels, .initializer⟩
  | ⟨levels, .initializer⟩, .operator .sub => some ⟨levels, .magnitude⟩
  | ⟨items :: levels, .initializer⟩, .number n =>
    some ⟨(.value (.ofNat n) :: items) :: levels, .separator⟩
  | ⟨items :: levels, .magnitude⟩, .number n =>
    some ⟨(.value (-.ofNat n) :: items) :: levels, .separator⟩
  | ⟨levels, .separator⟩, .comma => some ⟨levels, .initializer⟩
  | ⟨(item :: items) :: outer :: levels, .initializer⟩, .closeBrace
  | ⟨(item :: items) :: outer :: levels, .separator⟩, .closeBrace =>
    some ⟨(.braces (item :: items).reverse :: outer) :: levels, .separator⟩
  | ⟨[[item]], .separator⟩, .semicolon => some ⟨[[item]], .nothing⟩
  | _, _ => none

/-- The initialiser that a list of elements is, up to a semicolon at its end. -/
def initializer? (ts : List Token) : Option Initializer := do
  match ← ts.foldlM InitializerReader.step? ⟨[[]], .initializer⟩ with
  | ⟨[[item]], .nothing⟩ => some item
  | _ => none

/-- The extents at the beginning of a list of elements, and what follows them. -/
def extents : List Token → List ℕ × List Token
  | .openBracket :: .number n :: .closeBracket :: ts => (n :: (extents ts).1, (extents ts).2)
  | ts => ([], ts)

/-- The name and the array that the definition of a constant array of cells gives. -/
def definedArray? : List Token → Option (String × CArray)
  | .name "static" :: .name "const" :: .name "cell" :: .name x :: ts =>
    match extents ts with
    | (ns, .assign :: ts) => do
      let a ← CArray.ofInitializer? ns (← initializer? ts)
      return (x, a)
    | _ => none
  | _ => none

/-- A text with blanks for its line breaks. -/
def spaced (s : String) : String :=
  .ofList (s.toList.map fun c => if c = '\n' then ' ' else c)

/-- The name and the array that a text defines. -/
def declaredArray? (s : String) : Option (String × CArray) :=
  (tokens? (spaced s)).bind definedArray?

/-! ### Texts -/

/-- A name with extents in brackets behind it. -/
def declaratorText (x : String) (ns : List ℕ) : String :=
  x ++ String.join (ns.map fun n => "[" ++ toString n ++ "]")

/-- Integers in braces, with a comma after them. -/
def rowText (vs : List ℤ) : String :=
  "\x7b" ++ ", ".intercalate (vs.map toString) ++ "\x7d,"

/-- The definition of an array with its rows on lines of their own. -/
def definitionText (x : String) (ns : List ℕ) (rows : List (List ℤ)) : String :=
  "static const cell " ++ declaratorText x ns ++ " = \x7b\n" ++
    String.join (rows.map fun vs => "    " ++ rowText vs ++ "\n") ++ "\x7d;\n"

/-! ### Line breaks -/

variable {s t u : String} {ts us : List Token}

theorem spaced_append (s t : String) : spaced (s ++ t) = spaced s ++ spaced t := by
  simp [spaced]

theorem spaced_join (l : List String) : spaced (String.join l) = String.join (l.map spaced) := by
  simp [← String.toList_inj, spaced, String.toList_join, List.map_flatMap, List.flatMap_map]

theorem spaced_eq_self (h : '\n' ∉ s.toList) : spaced s = s := by
  rw [← String.toList_inj, spaced, String.toList_ofList]
  have hkept : ∀ c ∈ s.toList, (if c = '\n' then ' ' else c) = c := by
    rintro c hc
    exact if_neg fun heq => h (by rwa [heq] at hc)
  rw [List.map_congr_left hkept, List.map_id']

/-- A line break is no element and no part of one. -/
theorem newline_notMem_of_tokens?_eq_some (h : tokens? s = some ts) : '\n' ∉ s.toList := by
  have hall : ∀ (pieces : List (List Char)) ts, pieces.mapM token? = some ts →
      ∀ piece ∈ pieces, ∃ t, token? piece = some t := by
    intro pieces
    induction pieces with
    | nil => simp
    | cons piece pieces ih =>
      intro ts hts
      simp only [List.mapM_cons, Option.bind_eq_bind, Option.bind_eq_some_iff] at hts
      obtain ⟨t, ht, us, hus, -⟩ := hts
      exact List.forall_mem_cons.mpr ⟨⟨t, ht⟩, ih us hus⟩
  intro hmem
  -- the break is in a piece that has been read as an element, as it is not in a blank
  rw [← List.flatten_splitBy glued s.toList] at hmem
  obtain ⟨piece, hpiece, hc⟩ := List.mem_flatten.mp hmem
  have hblank : piece ≠ [' '] := by
    rintro rfl
    simp at hc
  obtain ⟨t, ht⟩ := hall _ _ h piece (List.mem_filter.mpr ⟨hpiece, by simpa using hblank⟩)
  rw [token?, if_neg] at ht
  · unfold punctuator? at ht
    split at ht <;> simp at hc ht
  · rw [List.all_eq_true]
    intro hword
    have := hword _ hc
    revert this
    decide

/-! ### Parts of initialisers -/

/-- A brace that holds something can be closed after an initialiser and after a comma. -/
theorem step?_closeBrace {items outer : List Initializer} {levels : List (List Initializer)}
    {awaited : Awaited} (hne : items ≠ []) (h : awaited = .initializer ∨ awaited = .separator) :
    InitializerReader.step? ⟨items.reverse :: outer :: levels, awaited⟩ .closeBrace =
      some ⟨(.braces items :: outer) :: levels, .separator⟩ := by
  -- a closing brace looks at the last initialiser, which the reader keeps first
  obtain ⟨last, others, hitems⟩ :=
    List.exists_cons_of_ne_nil (show items.reverse ≠ [] by simpa using hne)
  have hreverse : items = (last :: others).reverse := by rw [← hitems, List.reverse_reverse]
  rw [hitems, hreverse]
  rcases h with rfl | rfl <;> rfl

/-- From one state of the reading, the text leads to the other. -/
def Reads (s : String) (r r' : InitializerReader) : Prop :=
  ∃ ts, tokens? s = some ts ∧ ts.foldlM InitializerReader.step? r = some r'

variable {r r' r'' : InitializerReader} {levels : List (List Initializer)}
  {items : List Initializer}

namespace Reads

theorem append (hs : Reads s r r') (ht : Reads t r' r'') (h : Apart s t) :
    Reads (s ++ t) r r'' := by
  obtain ⟨ts, hts, hrun⟩ := hs
  obtain ⟨us, hus, hrun'⟩ := ht
  refine ⟨ts ++ us, tokens?_append h hts hus, ?_⟩
  rw [List.foldlM_append, hrun]
  exact hrun'

theorem value (v : ℤ) : Reads (toString v) ⟨items :: levels, .initializer⟩
    ⟨(.value (.ofInt v) :: items) :: levels, .separator⟩ := by
  cases v with
  | ofNat n =>
    have hn : UInt64.ofInt (Int.ofNat n) = UInt64.ofNat n := ofInt_natCast n
    rw [hn]
    exact ⟨_, tokens?_number n, rfl⟩
  | negSucc n =>
    have hsign : tokens? "-" = some [.operator .sub] := by decide
    rw [Int.negSucc_eq, UInt64.ofInt_neg, ← Int.natCast_succ, ofInt_natCast]
    exact ⟨_, tokens?_append (apart_minus_number (n + 1)) hsign (tokens?_number (n + 1)), rfl⟩

theorem values {vs : List ℤ} (hne : vs ≠ []) :
    Reads (", ".intercalate (vs.map toString)) ⟨items :: levels, .initializer⟩
      ⟨((vs.map fun v => .value (.ofInt v)).reverse ++ items) :: levels, .separator⟩ := by
  induction vs generalizing items with
  | nil => exact absurd rfl hne
  | cons v vs ih =>
    cases vs with
    | nil => exact value v
    | cons w vs =>
      have hcomma : ∀ items, Reads ", " ⟨items :: levels, .separator⟩
          ⟨items :: levels, .initializer⟩ := fun _ => ⟨[.comma], by decide, rfl⟩
      have hfirst := (value v).append (hcomma (.value (.ofInt v) :: items))
        (apart_of_startsWith (by decide))
      have hall := hfirst.append (ih (List.cons_ne_nil w vs))
        (apart_append (by decide) (apart_of_endsWith (by decide)))
      rw [List.map_cons, List.map_cons, String.intercalate_cons_cons]
      simpa using hall

theorem row {vs : List ℤ} (hne : vs ≠ []) : Reads (rowText vs) ⟨items :: levels, .initializer⟩
      ⟨(.row (vs.map .ofInt) :: items) :: levels, .initializer⟩ := by
  have hopen : Reads "\x7b" ⟨items :: levels, .initializer⟩ ⟨[] :: items :: levels, .initializer⟩ :=
    ⟨[.openBrace], by decide, rfl⟩
  have hrow : Initializer.row (vs.map .ofInt) = .braces (vs.map fun v => .value (.ofInt v)) := by
    rw [Initializer.row, List.map_map]
    rfl
  have hclose : Reads "\x7d,"
      ⟨(vs.map fun v => .value (.ofInt v)).reverse :: items :: levels, .separator⟩
      ⟨(.row (vs.map .ofInt) :: items) :: levels, .initializer⟩ := by
    refine ⟨[.closeBrace, .comma], by decide, ?_⟩
    rw [List.foldlM_cons, step?_closeBrace (by simpa using hne) (Or.inr rfl), hrow]
    rfl
  have hvalues := hopen.append (values hne) (apart_of_endsWith (by decide))
  rw [List.append_nil] at hvalues
  exact hvalues.append hclose (apart_of_startsWith (by decide))

theorem rows {rows : List (List ℤ)} (hrows : ∀ row ∈ rows, row ≠ []) :
    Reads (String.join (rows.map fun vs => "    " ++ rowText vs ++ " "))
      ⟨items :: levels, .initializer⟩
      ⟨((rows.map fun row => .row (row.map .ofInt)).reverse ++ items) :: levels, .initializer⟩ := by
  induction rows generalizing items with
  | nil => exact ⟨[], by decide, rfl⟩
  | cons vs rows ih =>
    obtain ⟨hvs, hrows⟩ := List.forall_mem_cons.mp hrows
    have hindent : Reads "    " ⟨items :: levels, .initializer⟩ ⟨items :: levels, .initializer⟩ :=
      ⟨[], by decide, rfl⟩
    have hbreak : ∀ r, Reads " " r r := fun r => ⟨[], by decide, rfl⟩
    have hline := (hindent.append (row hvs) (apart_of_endsWith (by decide))).append (hbreak _)
      (apart_of_startsWith (by decide))
    have hall := hline.append (ih hrows) (apart_append (by decide) (apart_of_endsWith (by decide)))
    rw [List.map_cons, String.join_cons]
    simpa using hall

end Reads

theorem newline_notMem_rowText {vs : List ℤ} (hne : vs ≠ []) : '\n' ∉ (rowText vs).toList := by
  obtain ⟨ts, hts, -⟩ : Reads (rowText vs) ⟨[[]], .initializer⟩ _ := .row hne
  exact newline_notMem_of_tokens?_eq_some hts

/-! ### Definitions -/

variable {x : String} {ns : List ℕ} {rows : List (List ℤ)}

theorem tokens?_brackets (hs : tokens? s = some ts) (ns : List ℕ) :
    tokens? (s ++ String.join (ns.map fun n => "[" ++ toString n ++ "]")) =
      some (ts ++ ns.flatMap fun n => [.openBracket, .number n, .closeBracket]) := by
  induction ns generalizing s ts with
  | nil => simpa using hs
  | cons n ns ih =>
    have hopen := tokens?_separated separator_openBracket hs (tokens?_number n)
    have hall := ih (tokens?_append (apart_of_startsWith separator_closeBracket.head) hopen
      separator_closeBracket.tokens)
    rw [List.map_cons, String.join_cons]
    simpa [String.append_assoc] using hall

theorem tokens?_declaratorText (hx : IsName x) (ns : List ℕ) :
    tokens? (declaratorText x ns) =
      some (.name x :: ns.flatMap fun n => [.openBracket, .number n, .closeBracket]) :=
  tokens?_brackets hx.tokens?_eq ns

theorem extents_append (ns : List ℕ) (ts : List Token) :
    extents ((ns.flatMap fun n => [.openBracket, .number n, .closeBracket]) ++ .assign :: ts) =
      (ns, .assign :: ts) := by
  induction ns with
  | nil => rfl
  | cons n ns ih =>
    rw [List.flatMap_cons]
    simp only [List.cons_append, List.nil_append, extents, ih]

theorem newline_notMem_declaratorText (hx : IsName x) (ns : List ℕ) :
    '\n' ∉ (declaratorText x ns).toList :=
  newline_notMem_of_tokens?_eq_some (tokens?_declaratorText hx ns)

/-- Only the line breaks that end the lines turn into blanks. -/
theorem spaced_definitionText (hx : IsName x) (hrows : ∀ vs ∈ rows, vs ≠ []) :
    spaced (definitionText x ns rows) = "static const cell " ++ declaratorText x ns ++ " = " ++
      ("\x7b " ++ String.join (rows.map fun vs => "    " ++ rowText vs ++ " ") ++ "\x7d; ") := by
  have hdeclarator : spaced (declaratorText x ns) = declaratorText x ns :=
    spaced_eq_self (newline_notMem_declaratorText hx ns)
  have hindent : spaced "    " = "    " := by decide
  have hbreak : spaced "\n" = " " := by decide
  have hline : ∀ vs ∈ rows,
      spaced ("    " ++ rowText vs ++ "\n") = "    " ++ rowText vs ++ " " := by
    intro vs hvs
    rw [spaced_append, spaced_append, spaced_eq_self (newline_notMem_rowText (hrows vs hvs)),
      hindent, hbreak]
  have hlines : spaced (String.join (rows.map fun vs => "    " ++ rowText vs ++ "\n")) =
      String.join (rows.map fun vs => "    " ++ rowText vs ++ " ") := by
    rw [spaced_join, List.map_map]
    exact congrArg String.join (List.map_congr_left hline)
  have hhead : spaced "static const cell " = "static const cell " := by decide
  have hassign : spaced " = \x7b\n" = " = " ++ "\x7b " := by decide
  have hend : spaced "\x7d;\n" = "\x7d; " := by decide
  unfold definitionText
  rw [spaced_append _ "\x7d;\n", spaced_append _ (String.join _), spaced_append _ " = \x7b\n",
    spaced_append _ (declaratorText x ns), hhead, hdeclarator, hassign, hlines, hend]
  simp only [String.append_assoc]

theorem Reads.initializer (hne : rows ≠ []) (hrows : ∀ vs ∈ rows, vs ≠ []) :
    Reads ("\x7b " ++ String.join (rows.map fun vs => "    " ++ rowText vs ++ " ") ++ "\x7d; ")
      ⟨[[]], .initializer⟩ ⟨[[.braces (rows.map fun vs => .row (vs.map .ofInt))]], .nothing⟩ := by
  have hopen : Reads "\x7b " ⟨[[]], .initializer⟩ ⟨[[], []], .initializer⟩ :=
    ⟨[.openBrace], by decide, rfl⟩
  have hclose : Reads "\x7d; "
      ⟨[(rows.map fun vs => .row (vs.map .ofInt)).reverse, []], .initializer⟩
      ⟨[[.braces (rows.map fun vs => .row (vs.map .ofInt))]], .nothing⟩ := by
    refine ⟨[.closeBrace, .semicolon], by decide, ?_⟩
    rw [List.foldlM_cons, step?_closeBrace (by simpa using hne) (Or.inl rfl)]
    rfl
  have hinner := hopen.append (Reads.rows hrows) (apart_of_endsWith (by decide))
  rw [List.append_nil] at hinner
  exact hinner.append hclose (apart_of_startsWith (by decide))

/-- An array that is written in rows is initialised with a list of rows. -/
theorem declaredArray?_definitionText (hx : IsName x) (hne : rows ≠ [])
    (hrows : ∀ vs ∈ rows, vs ≠ []) :
    declaredArray? (definitionText x ns rows) =
      (CArray.ofInitializer? ns (.braces (rows.map fun vs => .row (vs.map .ofInt)))).map
        (x, ·) := by
  obtain ⟨ts, hts, hrun⟩ := Reads.initializer hne hrows
  have hinit : initializer? ts = some (.braces (rows.map fun vs => .row (vs.map .ofInt))) := by
    rw [initializer?, hrun]
    rfl
  have hhead : tokens? "static const cell " =
      some [.name "static", .name "const", .name "cell"] := by decide
  have hassign : Separator " = " [.assign] := ⟨by decide, by decide, by decide, by decide⟩
  have htokens := tokens?_separated hassign
    (tokens?_append (apart_of_endsWith (by decide)) hhead (tokens?_declaratorText hx ns)) hts
  rw [declaredArray?, spaced_definitionText hx hrows, htokens, Option.bind_some]
  simp only [List.cons_append, List.nil_append, List.append_assoc, definedArray?, extents_append,
    hinit, Option.bind_eq_bind, Option.bind_some, Option.pure_def]
  rw [Option.map_eq_bind]
  rfl

end AffineLoops.CText
