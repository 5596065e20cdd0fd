/-!
# Integer points

Iterations, offsets and loop coordinates are all lists of integers, one entry per axis. This
file holds the operations they share: componentwise sums, inner products, the lexicographic
order and the two written forms.

## Main definitions

- `Point` — one integer per axis
- `Point.shift`, `Point.dot` — componentwise sum and inner product, on the common length
- `Point.lexSign`, `Point.lexLe` — the lexicographic order, as a sign and as a test
- `Point.render`, `Point.renderTuple` — `[1, -2]` and `(1,-2)`
-/

namespace AffineLoops

/-- An integer vector: an iteration, an offset or a tuple of loop values. -/
abbrev Point := List Int

namespace Point

/-- Moves a point by an offset, on the axes that both of them have. -/
def shift (p offset : Point) : Point :=
  List.zipWith (· + ·) p offset

/-- The opposite vector. -/
def neg (p : Point) : Point :=
  p.map (- ·)

/-- Componentwise difference, on the axes that both of them have. -/
def sub (p q : Point) : Point :=
  List.zipWith (· - ·) p q

/-- Inner product, on the axes that both of them have. -/
def dot : Point → Point → Int
  | a :: p, b :: q => a * b + dot p q
  | _, _ => 0

/-- Sign of the first nonzero entry: where the vector stands against the origin in the
lexicographic order. -/
def lexSign : Point → Int
  | [] => 0
  | a :: p => if a = 0 then lexSign p else a.sign

/-- The lexicographic order; a point comes before its extensions. -/
def lexLe : Point → Point → Bool
  | [], _ => true
  | _ :: _, [] => false
  | a :: p, b :: q => a < b || (a == b && lexLe p q)

/-- Greatest common divisor of the entries, never negative. -/
def gcd (p : Point) : Int :=
  p.foldl (fun g a => (Int.gcd g a : Int)) 0

/-- The entries between square brackets, separated by a comma and a blank. -/
def render (p : Point) : String :=
  "[" ++ ", ".intercalate (p.map toString) ++ "]"

/-- The entries between parentheses, separated by commas alone. -/
def renderTuple (p : Point) : String :=
  "(" ++ ",".intercalate (p.map toString) ++ ")"

end Point

end AffineLoops
