import AffineLoops.Point
/-!
# Rectangular domains

A domain is a box of integer points, half-open on every axis. It is the set of iterations of a
loop nest, and also the index set of an array. Points are enumerated in lexicographic order, and
`linearIndex?` is their position in it.

## Main definitions

- `Domain`, `DomainError` — boxes, and what can be wrong with one or with a point of one
- `Domain.ofBounds`, `Domain.rect`, `Domain.cube` — checked construction
- `Domain.contains`, `Domain.size`, `Domain.linearIndex?` — membership, number of points, position
- `Domain.successor?`, `Domain.firstPoints`, `Domain.points` — enumeration
- `Domain.corners`, `Domain.translate` — extreme points and displacement
-/

namespace AffineLoops

/-- A box of integer points: on every axis from `lower`, included, to `upper`, excluded. -/
structure Domain where
  /-- The least coordinate on every axis. -/
  lower : Point
  /-- The coordinate after the greatest one on every axis. -/
  upper : Point
deriving DecidableEq, Inhabited

/-- One interval per axis, joined by a cross. -/
def Domain.render (d : Domain) : String :=
  let interval (l u : Int) := "[" ++ toString l ++ ", " ++ toString u ++ ")"
  " x ".intercalate (List.zipWith interval d.lower d.upper)

/-- Where a point was looked up. -/
inductive Region where
  /-- The points of a box. -/
  | box (domain : Domain)
  /-- An auxiliary grid that was not given. -/
  | missingGrid
  /-- The arrays of a language that counts from zero. -/
  | zeroBasedArray
deriving DecidableEq

/-- The wording for a region. -/
def Region.render : Region → String
  | .box domain => domain.render
  | .missingGrid => "missing auxiliary grid"
  | .zeroBasedArray => "a zero-based C array"

/-- What is wrong with a domain or with a point of one. -/
inductive DomainError where
  /-- An axis whose lower bound is not below its upper bound. -/
  | emptyAxis (axis : Nat) (lower upper : Int)
  /-- A vector with the wrong number of coordinates. -/
  | dimensionMismatch (expected found : Nat)
  /-- Random values up to a negative maximum. -/
  | emptyValueRange (maximum : Int)
  /-- A point outside the region it was looked up in. -/
  | outOfBounds (point : Point) (region : Region)
deriving DecidableEq

/-- The wording of a domain error. -/
def DomainError.message : DomainError → String
  | .emptyAxis axis lower upper => s!"axis {axis} is empty: [{lower}, {upper})"
  | .dimensionMismatch expected found => s!"expected {expected} coordinates, found {found}"
  | .emptyValueRange maximum => s!"value range 0..={maximum} is empty"
  | .outOfBounds point region => "point " ++ point.render ++ " lies outside " ++ region.render

namespace Domain

/-- The domain with the given bounds, one lower and one upper per axis, none of them empty. -/
def ofBounds (lower upper : Point) : Except DomainError Domain :=
  if lower.length ≠ upper.length then .error (.dimensionMismatch lower.length upper.length)
  else
    match (lower.zip upper).zipIdx.find? (fun ((l, u), _) => u ≤ l) with
    | some ((l, u), axis) => .error (.emptyAxis axis l u)
    | none => .ok ⟨lower, upper⟩

/-- The two-dimensional domain from `a₁` to `b₁` and from `a₂` to `b₂`. -/
def rect (a₁ b₁ a₂ b₂ : Int) : Except DomainError Domain :=
  ofBounds [a₁, a₂] [b₁, b₂]

/-- The domain of side `n` at the origin. -/
def cube (dim : Nat) (n : Int) : Except DomainError Domain :=
  ofBounds (List.replicate dim 0) (List.replicate dim n)

/-- Number of axes. -/
def dim (d : Domain) : Nat :=
  d.lower.length

/-- Number of points along every axis. -/
def extents (d : Domain) : List Int :=
  List.zipWith (fun l u => u - l) d.lower d.upper

/-- Number of points along one axis, if there is such an axis. -/
def extent? (d : Domain) (axis : Nat) : Option Int :=
  d.extents[axis]?

/-- Number of points. -/
def size (d : Domain) : Nat :=
  (d.extents.map Int.toNat).foldr (· * ·) 1

/-- There are no points. No checked construction gives such a domain. -/
def isEmpty (d : Domain) : Bool :=
  d.size == 0

/-- Every coordinate lies between its two bounds. -/
def within : Point → Point → Point → Bool
  | l :: ls, u :: us, x :: xs => decide (l ≤ x) && decide (x < u) && within ls us xs
  | _, _, _ => true

/-- The point belongs to the domain. -/
def contains (d : Domain) (p : Point) : Bool :=
  p.length == d.dim && within d.lower d.upper p

/-- Every point of the other domain belongs to this one. -/
def containsDomain (d other : Domain) : Bool :=
  other.dim == d.dim &&
    (List.zipWith (fun l l' => decide (l ≤ l')) d.lower other.lower).all id &&
    (List.zipWith (fun u u' => decide (u' ≤ u)) d.upper other.upper).all id

/-- The domain moved by an offset, which must have one coordinate per axis. -/
def translate (d : Domain) (offset : Point) : Except DomainError Domain :=
  if offset.length ≠ d.dim then .error (.dimensionMismatch d.dim offset.length)
  else .ok ⟨d.lower.shift offset, d.upper.shift offset⟩

/-- Position in row-major order, built up from `start` axis by axis. -/
def rowMajor : Nat → Point → Point → Point → Nat
  | start, l :: ls, u :: us, x :: xs => rowMajor (start * (u - l).toNat + (x - l).toNat) ls us xs
  | start, _, _, _ => start

/-- Position of a point in the enumeration of the domain, if it belongs to it. -/
def linearIndex? (d : Domain) (p : Point) : Option Nat :=
  if d.contains p then some (rowMajor 0 d.lower d.upper p) else none

/-- The point after `x` in the box: the last axis that can moves on, and those after it start
over. -/
def advance : Point → Point → Point → Option Point
  | _ :: ls, u :: us, x :: xs =>
    match advance ls us xs with
    | some xs' => some (x :: xs')
    | none => if x + 1 < u then some ((x + 1) :: ls) else none
  | _, _, _ => none

/-- The point after `p` in lexicographic order, if there is one. -/
def successor? (d : Domain) (p : Point) : Option Point :=
  advance d.lower d.upper p

/-- A point and those after it, at most so many. -/
def pointsFrom (d : Domain) : Nat → Option Point → List Point
  | 0, _ => []
  | _ + 1, none => []
  | n + 1, some p => p :: d.pointsFrom n (d.successor? p)

/-- The first points in lexicographic order, at most so many. -/
def firstPoints (d : Domain) (n : Nat) : List Point :=
  d.pointsFrom n (some d.lower)

/-- All points in lexicographic order. -/
def points (d : Domain) : List Point :=
  d.firstPoints d.size

/-- The corner picked by the binary digits of `mask`: the least coordinate on the axes whose digit
is 0 and the greatest on the others. -/
def corner (d : Domain) (mask : Nat) : Point :=
  (d.lower.zip d.upper).zipIdx.map fun ((l, u), axis) => if mask.testBit axis then u - 1 else l

/-- All corners, the first axis changing fastest. -/
def corners (d : Domain) : List Point :=
  (List.range (1 <<< d.dim)).map d.corner

end Domain

end AffineLoops
