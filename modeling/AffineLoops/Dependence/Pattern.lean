import AffineLoops.Error
import AffineLoops.Lattice.Diagonal
/-!
# Dependence patterns

A pattern is a list of offsets `d`: the iteration at `p` depends on the iteration at `p + d`. Every
offset is lexicographically negative, so the lexicographic order visits the source first. A
transform respects the pattern when the images of all offsets are negative as well.

## Main definitions

- `DependenceKind` — whether a read follows or precedes the write of its cell
- `DependencePattern` — the offsets, each of them once
- `DependencePattern.ofOffsets` — checked construction
- `DependencePattern.ofAccesses` — the pattern of a statement, from the accesses it makes
- `DependencePattern.violations` — the offsets that a transform turns around

## Design notes

A statement that writes `A * p + w` and reads `A * p + r` touches the same cell as the iteration
`p + δ` exactly when `A * δ = r - w`. One solution `δ` is looked for per read; a positive one is a
write after the read, and is turned around.
-/

namespace AffineLoops

/-- The two ways in which an iteration can depend on an earlier one through an array cell. -/
inductive DependenceKind where
  /-- The cell is read after it was written. -/
  | flow
  /-- The cell is written after it was read. -/
  | anti
deriving DecidableEq

/-- The short name of a kind of dependence. -/
def DependenceKind.shortName : DependenceKind → String
  | .flow => "RAW"
  | .anti => "WAR"

/-- The offsets of the iterations that an iteration depends on. -/
structure DependencePattern where
  dim : Nat
  /-- The offsets, in the order in which they were found. -/
  offsets : List Point
deriving DecidableEq

namespace DependencePattern

/-- The pattern without dependences. -/
def empty (dim : Nat) : DependencePattern :=
  ⟨dim, []⟩

/-- Adds an offset at the end, unless it is there already. -/
def insert (p : DependencePattern) (offset : Point) : DependencePattern :=
  if offset ∈ p.offsets then p else { p with offsets := p.offsets ++ [offset] }

/-- Adds an offset that must have the right length and be lexicographically negative. -/
def insertChecked (p : DependencePattern) (offset : Point) :
    Except DerivationError DependencePattern :=
  if offset.length = p.dim ∧ offset.lexSign < 0 then .ok (p.insert offset)
  else .error (.forwardOffset offset)

/-- The pattern with the given offsets. -/
def ofOffsets (dim : Nat) (offsets : List Point) : Except DerivationError DependencePattern :=
  offsets.foldlM insertChecked (empty dim)

/-- The backward offset of a distance between two iterations, with the kind of the dependence;
none when the distance is zero. -/
def orient? (distance : Point) : Option (Point × DependenceKind) :=
  if distance.lexSign = 0 then none
  else if distance.lexSign < 0 then some (distance, .flow)
  else some (distance.neg, .anti)

/-- Adds the dependence that a read carries, if it carries one. -/
def addRead (rounds : Nat) (write : AffineAccess) (p : DependencePattern) (read : AffineAccess) :
    Except Error DependencePattern := do
  if read.matrix ≠ write.matrix then throw (.derivation (.nonUniform read write))
  if read.offset.length ≠ write.offset.length then
    throw (.domain (.dimensionMismatch write.offset.length read.offset.length))
  match ← solve rounds write.matrix (read.offset.sub write.offset) with
  | .unfinished => throw (.fault .unfinished)
  | .unsolvable => return p
  | .found distance =>
    match orient? distance with
    | none => return p
    | some (offset, _) => return p.insert offset

/-- The pattern of a statement with the given accesses. Reads of cells that no other iteration
writes contribute nothing. The number of rounds bounds the elimination behind each read. -/
def ofAccesses (rounds : Nat) (write : AffineAccess) (reads : List AffineAccess) :
    Except Error DependencePattern :=
  reads.foldlM (addRead rounds write) (empty write.matrix.cols)

/-- There are no dependences. -/
def isEmpty (p : DependencePattern) : Bool :=
  p.offsets.isEmpty

/-- The offsets whose image is not lexicographically negative; all of them when the transform has
another number of axes. -/
def violations (p : DependencePattern) (t : Transform) : List Point :=
  if t.dim ≠ p.dim then p.offsets
  else p.offsets.filter fun d => decide (0 ≤ (t.apply d).lexSign)

/-- The transform keeps every source before its consumer. -/
def isRespectedBy (p : DependencePattern) (t : Transform) : Bool :=
  (p.violations t).isEmpty

/-- The offsets between braces. -/
def render (p : DependencePattern) : String :=
  "\x7b" ++ ", ".intercalate (p.offsets.map Point.renderTuple) ++ "\x7d"

end DependencePattern

/-- Whether a statement with the given accesses carries a dependence between iterations. -/
def hasLoopCarriedDependence (rounds : Nat) (write : AffineAccess) (reads : List AffineAccess) :
    Except Error Bool := do
  return !(← DependencePattern.ofAccesses rounds write reads).isEmpty

end AffineLoops
