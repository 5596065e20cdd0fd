/-!
# Indented text

Text that is built line by line, where every nonempty line starts with the indentation in force
when its first character is written.

## Main definitions

- `Indented` — the text so far, the level of indentation and what one level looks like
- `Indented.write`, `Indented.line` — additions
- `Indented.indent`, `Indented.dedent` — changes of level
-/

namespace AffineLoops

/-- A text under construction. -/
structure Indented where
  text : String := ""
  /-- How many times a line is indented. -/
  level : Nat := 0
  /-- What a line starts with for every level. -/
  unit : String := "  "
  /-- Whether the next character is the first of its line. -/
  atLineStart : Bool := true
deriving Inhabited

namespace Indented

/-- Adds one character, after the indentation if it is the first of its line. A line break is
never indented. -/
def writeChar (t : Indented) (c : Char) : Indented :=
  if c = '\n' then { t with text := t.text.push c, atLineStart := true }
  else if t.atLineStart then
    let start := (List.replicate t.level t.unit).foldl (· ++ ·) t.text
    { t with text := start.push c, atLineStart := false }
  else { t with text := t.text.push c }

/-- Adds some text, which may hold line breaks. -/
def write (t : Indented) (s : String) : Indented :=
  s.toList.foldl writeChar t

/-- Adds some text and ends the line. -/
def line (t : Indented) (s : String) : Indented :=
  (t.write s).writeChar '\n'

/-- Ends the line. -/
def newline (t : Indented) : Indented :=
  t.writeChar '\n'

/-- Adds several lines. -/
def lines (t : Indented) (ss : List String) : Indented :=
  ss.foldl line t

/-- Indents the lines that follow once more. -/
def indent (t : Indented) : Indented :=
  { t with level := t.level + 1 }

/-- Indents the lines that follow once less, if they are indented at all. -/
def dedent (t : Indented) : Indented :=
  { t with level := t.level - 1 }

end Indented

end AffineLoops
