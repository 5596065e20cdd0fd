import AffineLoops.Fault
import AffineLoops.Domain
import AffineLoops.Transform.Basic
import AffineLoops.Dependence.Access
/-!
# Errors

Each family of errors is a type of causes with one function for their wording. `Error` joins the
families, for operations that can fail in several ways, and puts the name of the family in front of
the wording.

## Main definitions

- `DerivationError` — bounds that cannot be derived, or that turn out wrong
- `DerivationErrorKind`, `DerivationError.kind` — what callers tell apart
- `EquivalenceError` — two nests that differ or cannot be compared
- `Error`, `Error.message` — any error of the library, or a fault
-/

namespace AffineLoops

/-- What is wrong with a derived nest, or what keeps one from being derived. -/
inductive DerivationError where
  /-- A tuple of loop values with the wrong number of coordinates. -/
  | inverseDimension (expected found : Nat)
  /-- A tuple of loop values that is the image of no iteration: a scaled coordinate is no multiple
  of the determinant. -/
  | offLattice (point : Point) (scaled determinant : Int)
  /-- An iteration outside the domain is visited. -/
  | visitsOutside (point : Point) (domain : Domain)
  /-- An iteration is visited a second time. -/
  | visitsTwice (point : Point)
  /-- Some iterations of the domain are not visited. -/
  | visitsTooFew (visited : Nat) (domain : Domain)
  /-- An iteration is visited before one that it depends on. -/
  | dependenceOrder (source sink : Point)
  /-- A dependence offset of the wrong length, or one that does not point backwards. -/
  | forwardOffset (offset : Point)
  /-- A row of the matrix is zero. -/
  | zeroRow (row : Nat) (transform : Transform)
  /-- An entry of a supposed permutation is neither 1 nor -1. -/
  | notSignedUnit (entry : Int) (transform : Transform)
  /-- No bounds are known for the class of the transform in its dimension. -/
  | noClosedForm (transform : Transform)
  /-- A read and the write multiply the iteration with different matrices. -/
  | nonUniform (read write : AffineAccess)
deriving DecidableEq

/-- The wording of a derivation error. -/
def DerivationError.message : DerivationError → String
  | .inverseDimension expected found => s!"inverse expects {expected} coordinates, got {found}"
  | .offLattice point scaled determinant =>
    point.render ++ s!" is not on the image lattice ({scaled} not divisible by {determinant})"
  | .visitsOutside point domain => "visits " ++ point.render ++ ", outside " ++ domain.render
  | .visitsTwice point => "visits " ++ point.render ++ " twice"
  | .visitsTooFew visited domain =>
    s!"visits {visited} of the {domain.size} points of " ++ domain.render
  | .dependenceOrder source sink =>
    sink.render ++ " depends on " ++ source.render ++ " but is visited first"
  | .forwardOffset offset =>
    "dependence offset " ++ offset.render ++ " is not lexicographically negative"
  | .zeroRow row transform => s!"row {row} of " ++ transform.render ++ " is zero"
  | .notSignedUnit entry transform =>
    s!"entry {entry} of " ++ transform.render ++ " is not a signed unit"
  | .noClosedForm transform =>
    "no closed-form bounds for " ++ transform.classify.render ++ " transform " ++
      transform.render ++ s!" in {transform.dim} dimensions"
  | .nonUniform read write =>
    "read " ++ read.render ++ " and write " ++ write.render ++ " have different linear parts"

/-- The kinds of derivation errors that callers tell apart. -/
inductive DerivationErrorKind where
  | boundsMismatch
  | dependenceOrder
  | unsupportedTransform
  | nonUniformAccess
deriving DecidableEq

/-- The kind of a derivation error. -/
def DerivationError.kind : DerivationError → DerivationErrorKind
  | .inverseDimension .. | .offLattice .. | .visitsOutside .. | .visitsTwice ..
  | .visitsTooFew .. => .boundsMismatch
  | .dependenceOrder .. | .forwardOffset .. => .dependenceOrder
  | .zeroRow .. | .notSignedUnit .. | .noClosedForm .. => .unsupportedTransform
  | .nonUniform .. => .nonUniformAccess

/-- How two nests fail to be equivalent. -/
inductive EquivalenceError where
  /-- Some runs of a sweep differed, the first of them in the named case. -/
  | runsDiffer (failed total : Nat) (name : String)
  /-- The two nests of the named case cover different domains. -/
  | domainsDiffer (reference transformed : Domain) (name : String)
deriving DecidableEq

/-- The wording of an equivalence error. -/
def EquivalenceError.message : EquivalenceError → String
  | .runsDiffer failed total name => s!"{failed} of {total} runs differ in " ++ name
  | .domainsDiffer reference transformed name =>
    "nests cover " ++ reference.render ++ " and " ++ transformed.render ++ " in " ++ name

/-- Any error of the library. -/
inductive Error where
  | matrix (cause : MatrixError)
  | domain (cause : DomainError)
  | derivation (cause : DerivationError)
  | equivalence (cause : EquivalenceError)
  | fault (cause : Fault)
deriving DecidableEq

namespace Error

/-- The wording of the cause alone. -/
def cause : Error → String
  | matrix e => e.message
  | domain e => e.message
  | derivation e => e.message
  | equivalence e => e.message
  | fault e => e.message

/-- The family of the error and the wording of its cause. -/
def message : Error → String
  | matrix e => "Matrix error: " ++ e.message
  | domain e => "Domain error: " ++ e.message
  | derivation e => "Bounds derivation error: " ++ e.message
  | equivalence e => "Equivalence error: " ++ e.message
  | fault e => "Fault: " ++ e.message

/-- The kind of an error in the derivation or the check of a nest. -/
def derivationKind? : Error → Option DerivationErrorKind
  | derivation e => some e.kind
  | _ => none

end Error

instance : MonadLift (Except MatrixError) (Except Error) where
  monadLift := Except.mapError Error.matrix

instance : MonadLift (Except DomainError) (Except Error) where
  monadLift := Except.mapError Error.domain

instance : MonadLift (Except DerivationError) (Except Error) where
  monadLift := Except.mapError Error.derivation

instance : MonadLift (Except EquivalenceError) (Except Error) where
  monadLift := Except.mapError Error.equivalence

instance : MonadLift (Except Fault) (Except Error) where
  monadLift := Except.mapError Error.fault

end AffineLoops
