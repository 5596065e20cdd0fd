import AffineLoops.Derivation.Permuted
import AffineLoops.Derivation.Planar
/-!
# Derivation of nests

From a domain and a transform to the nest that visits the image in lexicographic order. Signed
permutations are treated in any dimension, all other transforms in two.

## Main definitions

- `Nest.derive` — the nest of a domain and a transform
- `NamedTransform` — transforms that are given by what they do to a nest
- `NamedTransform.matrix`, `NamedTransform.derive`, `NamedTransform.isLegal`
-/

namespace AffineLoops

/-- The nest that visits the image of a domain under a transform in lexicographic order. -/
def Nest.derive (domain : Domain) (t : Transform) : Except Error Nest :=
  if domain.dim ≠ t.dim then .error (.matrix (.dimensionMismatch domain.dim t.dim))
  else
    match t.classify with
    | .identity | .permutation => derivePermuted domain t
    | .unimodular | .lattice =>
      if t.dim = 2 then derivePlanar domain t else .error (.derivation (.noClosedForm t))

/-- A transform of loop nests, given by what it does. -/
inductive NamedTransform where
  | interchange (axis₁ axis₂ : Nat)
  /-- Adds a multiple of the source loop to the target loop. -/
  | skewing (target source : Nat) (factor : Int)
  /-- The planar matrix `[[1, r], [0, t]]`: a slant of the outer loop and a stretch of the inner
  one. -/
  | shear (r t : Int)
  | general (transform : Transform)
deriving DecidableEq

namespace NamedTransform

/-- The skewing that lets the loop `outer` run along the diagonals. -/
def wavefront (outer inner : Nat) : NamedTransform :=
  .skewing outer inner 1

/-- The transform of a matrix given by its rows. -/
def ofRows (rows : List (List Int)) : Except Error NamedTransform := do
  return .general (← Transform.ofRows rows)

/-- What kind of transform it is. -/
def name : NamedTransform → String
  | interchange _ _ => "interchange"
  | skewing _ _ _ => "skewing"
  | shear _ _ => "shear"
  | general _ => "general"

/-- The matrix on a nest with so many loops. The loops that are named must exist, and a shear or a
given matrix fits one depth only. -/
def matrix (t : NamedTransform) (dim : Nat) : Except Error Transform :=
  match t with
  | interchange a b =>
    if a < dim ∧ b < dim then liftM (Transform.interchange dim a b)
    else .error (.matrix (.dimensionMismatch (max a b + 1) dim))
  | skewing target source factor =>
    if target < dim ∧ source < dim then .ok (.skew dim target source factor)
    else .error (.matrix (.dimensionMismatch (max target source + 1) dim))
  | shear r t =>
    if dim = 2 then liftM (Transform.ofRows [[1, r], [0, t]])
    else .error (.matrix (.dimensionMismatch 2 dim))
  | general t =>
    if dim = t.dim then .ok t else .error (.matrix (.dimensionMismatch t.dim dim))

/-- Whether the transform exists on the axes of the pattern and respects it. -/
def isLegal (t : NamedTransform) (deps : DependencePattern) : Bool :=
  match t.matrix deps.dim with
  | .ok transform => deps.isRespectedBy transform
  | .error _ => false

/-- The transformed nest over a domain. -/
def derive (t : NamedTransform) (domain : Domain) : Except Error Nest := do
  Nest.derive domain (← t.matrix domain.dim)

end NamedTransform

end AffineLoops
