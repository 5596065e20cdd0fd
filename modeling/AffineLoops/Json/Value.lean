/-!
# JSON values

Reports and nests are stored as JSON. Objects keep their fields in order; numbers are integers, and
a number of any other form is kept as its text, for no stored value holds one.

## Main definitions

- `Json` — values
- `Json.field?` — a field of an object
- `Json.compact`, `Json.pretty` — the two printed forms, on one line and indented
-/

namespace AffineLoops

/-- A JSON value. -/
inductive Json where
  | null
  | bool (value : Bool)
  | int (value : Int)
  /-- A number with a fraction or an exponent. -/
  | fraction (text : String)
  | str (value : String)
  | arr (elements : List Json)
  /-- Named values, in order. -/
  | obj (fields : List (String × Json))
deriving Inhabited

namespace Json

/-- The value of a field, if the value is an object that has it. -/
def field? (j : Json) (name : String) : Option Json :=
  match j with
  | .obj fields => fields.lookup name
  | _ => none

/-- Integers as an array. -/
def ofInts (values : List Int) : Json :=
  .arr (values.map .int)

/-- Lists of integers as an array of arrays. -/
def ofRows (rows : List (List Int)) : Json :=
  .arr (rows.map ofInts)

/-- A natural number. -/
def ofNat (n : Nat) : Json :=
  .int n

/-- A value or the absent value. -/
def ofOption {α : Type} (f : α → Json) : Option α → Json
  | some a => f a
  | none => .null

/-- The digit of a number below sixteen, in lower case. -/
def hexDigit (n : Nat) : Char :=
  if n < 10 then Char.ofNat ('0'.toNat + n) else Char.ofNat ('a'.toNat + (n - 10))

/-- One character inside a quoted string. Quotes, backslashes and control characters are escaped;
all others stand for themselves. -/
def escapeChar (c : Char) : String :=
  if c = '"' then "\\\""
  else if c = '\\' then "\\\\"
  else if c = '\n' then "\\n"
  else if c = '\r' then "\\r"
  else if c = '\t' then "\\t"
  else if c.toNat = 8 then "\\b"
  else if c.toNat = 12 then "\\f"
  else if c.toNat < 32 then
    String.ofList ['\\', 'u', '0', '0', hexDigit (c.toNat / 16), hexDigit (c.toNat % 16)]
  else String.singleton c

/-- A string between quotes, with its characters escaped. -/
def quote (s : String) : String :=
  "\"" ++ String.join (s.toList.map escapeChar) ++ "\""

mutual

/-- The value on one line without blanks. -/
def compact : Json → String
  | .null => "null"
  | .bool value => if value then "true" else "false"
  | .int value => toString value
  | .fraction text => text
  | .str value => quote value
  | .arr elements => "[" ++ ",".intercalate (compactAll elements) ++ "]"
  | .obj fields => "\x7b" ++ ",".intercalate (compactFields fields) ++ "\x7d"

/-- Several values, each on one line. -/
def compactAll : List Json → List String
  | [] => []
  | j :: rest => compact j :: compactAll rest

/-- Several fields, each on one line. -/
def compactFields : List (String × Json) → List String
  | [] => []
  | (name, j) :: rest => (quote name ++ ":" ++ compact j) :: compactFields rest

end

/-- Items on lines of their own between two brackets, indented by two blanks more than the line
with the closing bracket; nothing between the brackets when there are no items. -/
def bracketed (opening closing indentation : String) (items : List String) : String :=
  if items.isEmpty then opening ++ closing
  else
    let separator := "\n" ++ indentation ++ "  "
    opening ++ separator ++ ("," ++ separator).intercalate items ++ "\n" ++ indentation ++ closing

mutual

/-- The value over several lines, where lines after the first start with the indentation. -/
def prettyFrom (indentation : String) : Json → String
  | .null => "null"
  | .bool value => if value then "true" else "false"
  | .int value => toString value
  | .fraction text => text
  | .str value => quote value
  | .arr elements => bracketed "[" "]" indentation (prettyAll (indentation ++ "  ") elements)
  | .obj fields => bracketed "\x7b" "\x7d" indentation (prettyFields (indentation ++ "  ") fields)

/-- Several values over several lines each. -/
def prettyAll (indentation : String) : List Json → List String
  | [] => []
  | j :: rest => prettyFrom indentation j :: prettyAll indentation rest

/-- Several fields over several lines each. -/
def prettyFields (indentation : String) : List (String × Json) → List String
  | [] => []
  | (name, j) :: rest =>
    (quote name ++ ": " ++ prettyFrom indentation j) :: prettyFields indentation rest

end

/-- The value over several lines, each level indented by two blanks. -/
def pretty (j : Json) : String :=
  prettyFrom "" j

end Json

end AffineLoops
