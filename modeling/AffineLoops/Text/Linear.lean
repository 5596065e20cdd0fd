import AffineLoops.Point
/-!
# Linear forms

The written form of `c₁ x₁ + … + cₙ xₙ + k`: terms with coefficient zero are left out, a
coefficient 1 or -1 shows only its sign, and the constant appears when it is nonzero or alone.

## Main definitions

- `Text.linear` — the written form over given names
-/

namespace AffineLoops.Text

/-- One term without its sign. -/
def term (magnitude : Nat) (name : String) : String :=
  if magnitude = 1 then name else toString magnitude ++ "*" ++ name

/-- Adds a term to the text of those before it; the first one carries its sign directly. -/
def addTerm (text : String) (coeff : Int) (name : String) : String :=
  if coeff = 0 then text
  else if text.isEmpty then (if coeff < 0 then "-" else "") ++ term coeff.natAbs name
  else text ++ (if coeff < 0 then " - " else " + ") ++ term coeff.natAbs name

/-- The text of the terms alone, over as many names as there are coefficients. -/
def linearTerms (coeffs : List Int) (names : List String) : String :=
  (coeffs.zip names).foldl (fun text (coeff, name) => addTerm text coeff name) ""

/-- The text of a linear form with a constant. -/
def linear (coeffs : List Int) (names : List String) (constant : Int) : String :=
  let terms := linearTerms coeffs names
  if terms.isEmpty then toString constant
  else if constant = 0 then terms
  else if constant < 0 then terms ++ " - " ++ toString constant.natAbs
  else terms ++ " + " ++ toString constant

end AffineLoops.Text
