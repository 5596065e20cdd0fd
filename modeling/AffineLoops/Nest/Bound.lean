import AffineLoops.Point
import AffineLoops.Rounding
import AffineLoops.Text.Linear
/-!
# Loop bounds

A bound is an expression in the variables of the enclosing loops. It has a value for every choice
of these variables and a written form over their names.

## Main definitions

- `AffineForm` — an affine function divided by a constant, with a direction of rounding
- `Bound` — constants, affine forms, maxima, minima and aligned starts
- `Bound.eval`, `Bound.render` — the value and the written form
- `Bound.isDefined` — no divisor and no modulus is zero
-/

namespace AffineLoops

/-- The rounded quotient `(coeffs · x + constant) / divisor`. -/
structure AffineForm where
  /-- One coefficient per enclosing loop variable. -/
  coeffs : List Int
  constant : Int
  divisor : Int
  rounding : Rounding
deriving DecidableEq, Inhabited

namespace AffineForm

/-- An affine function without a division. -/
def linear (coeffs : List Int) (constant : Int) : AffineForm :=
  ⟨coeffs, constant, 1, .floor⟩

/-- The value for given values of the enclosing variables. -/
def eval (outer : Point) (a : AffineForm) : Int :=
  a.rounding.quotient (Point.dot a.coeffs outer + a.constant) a.divisor

/-- The function that stands for a rounded division in the written form. -/
def function (a : AffineForm) : String :=
  match a.rounding with
  | .floor => "floord"
  | .ceil => "ceild"

/-- The written form; a division by one does not show. -/
def render (names : List String) (a : AffineForm) : String :=
  let numerator := Text.linear a.coeffs names a.constant
  if a.divisor = 1 then numerator
  else a.function ++ "(" ++ numerator ++ ", " ++ toString a.divisor ++ ")"

end AffineForm

/-- A loop bound in terms of the enclosing loop variables. -/
inductive Bound where
  | const (value : Int)
  | affine (form : AffineForm)
  | max (operands : List Bound)
  | min (operands : List Bound)
  /-- The least value from `base` on that is congruent to `target` modulo `modulus`. -/
  | aligned (base : Bound) (target : AffineForm) (modulus : Int)
deriving Inhabited

namespace Bound

/-- The largest of no values: the least loop value. -/
def least : Int := Int64.minValue.toInt

/-- The smallest of no values: the greatest loop value. -/
def greatest : Int := Int64.maxValue.toInt

/-- The maximum of several bounds; a single one stands for itself. -/
def maxOf : List Bound → Bound
  | [b] => b
  | bs => .max bs

/-- The minimum of several bounds; a single one stands for itself. -/
def minOf : List Bound → Bound
  | [b] => b
  | bs => .min bs

mutual

/-- The value for given values of the enclosing variables. -/
def eval (outer : Point) : Bound → Int
  | .const value => value
  | .affine form => form.eval outer
  | .max operands => ((evalAll outer operands).max?).getD least
  | .min operands => ((evalAll outer operands).min?).getD greatest
  | .aligned base target modulus =>
    let start := eval outer base
    start + residue (target.eval outer - start) modulus

/-- The values of several bounds. -/
def evalAll (outer : Point) : List Bound → List Int
  | [] => []
  | b :: bs => eval outer b :: evalAll outer bs

end

mutual

/-- Whether a division or an alignment by zero occurs nowhere in the bound. -/
def isDefined : Bound → Bool
  | .const _ => true
  | .affine form => form.divisor != 0
  | .max operands => allDefined operands
  | .min operands => allDefined operands
  | .aligned base target modulus => isDefined base && target.divisor != 0 && modulus != 0

/-- Whether each of several bounds is defined. -/
def allDefined : List Bound → Bool
  | [] => true
  | b :: bs => isDefined b && allDefined bs

end

/-- The value of a bound, where a division by zero is a fault. -/
def eval? (b : Bound) (outer : Point) : Except Fault Int :=
  if b.isDefined then .ok (b.eval outer) else .error .divisionByZero

mutual

/-- The written form, over the names of the enclosing variables. -/
def render (names : List String) : Bound → String
  | .const value => toString value
  | .affine form => form.render names
  | .max operands => renderNested "max" names operands
  | .min operands => renderNested "min" names operands
  | .aligned base target modulus =>
    let start := render names base
    start ++ " + pmod(" ++ target.render names ++ " - (" ++ start ++ "), " ++
      toString modulus ++ ")"

/-- The calls of a function of two arguments that combine several operands. -/
def renderNested (function : String) (names : List String) : List Bound → String
  | [] => ""
  | [b] => render names b
  | b :: b' :: bs =>
    function ++ "(" ++ render names b ++ ", " ++ renderNested function names (b' :: bs) ++ ")"

end

end Bound

end AffineLoops
