import AffineLoops.Case.Subsequence
/-!
# The catalog

Nine cases that together exercise every class of transform: the identity, an interchange, the
wavefront on the whole array and on a tile, a skew, two shears, a general lattice, and the table
of the longest common subsequence.

## Main definitions

- `Tile`, `CatalogConfig` — the parameters
- `CatalogConfig.specs` — the cases of the catalog before they are built
- `CatalogConfig.cases` — the built cases
-/

namespace AffineLoops

/-- A rectangular part of an array: rows from `a₁` to `b₁` and columns from `a₂` to `b₂`, the upper
ends excluded. -/
structure Tile where
  /-- The first row. -/
  a₁ : Int := 4
  /-- The row after the last one. -/
  b₁ : Int := 15
  /-- The first column. -/
  a₂ : Int := 6
  /-- The column after the last one. -/
  b₂ : Int := 19
deriving DecidableEq

/-- The tile as a domain. -/
def Tile.domain (t : Tile) : Except DomainError Domain :=
  Domain.rect t.a₁ t.b₁ t.a₂ t.b₂

/-- The parameters of the catalog. -/
structure CatalogConfig where
  /-- Side of the square array. -/
  size : Int := 100
  /-- The part of the array that most cases work on. -/
  tile : Tile := {}
  /-- Slant of the sheared tile. -/
  shearR : Int := 2
  /-- Stretch of the sheared tile. -/
  shearT : Int := 1
  general : List (List Int) := [[3, 2], [3, 4]]
  lcsLeft : String := "XMJYAUZBBAABABADDD"
  lcsRight : String := "MZJAWXUABBAABAB"
deriving DecidableEq

namespace CatalogConfig

/-- The sum of the upper and the left neighbour. -/
def stencilRule : UpdateRule :=
  .stencil "stencil" [[-1, 0], [0, -1]]

/-- The offsets of the upper and the left neighbour. -/
def stencilOffsets : List Point :=
  [[-1, 0], [0, -1]]

/-- A case over the square array. -/
def arrayCase (config : CatalogConfig) (name : String) (domain : Domain) (transform : Transform)
    (offsets : List Point) (rule : UpdateRule) : Except Error CaseSpec := do
  return {
    name := name
    domain := domain
    arrayShape := ← Domain.cube 2 config.size
    transform := transform
    dependences := ← DependencePattern.ofOffsets 2 offsets
    rule := rule }

/-- The cases of the catalog before they are built. -/
def specs (config : CatalogConfig) : Except Error (List CaseSpec) := do
  let n := config.size
  let tile ← config.tile.domain
  let wavefront ← (NamedTransform.wavefront 0 1).matrix 2
  let identity ← config.arrayCase "identity" (← Domain.rect 1 n 1 n) (.identity 2)
    stencilOffsets stencilRule
  let interchange ← config.arrayCase "interchange" (← Domain.rect 0 n 2 n)
    (← Transform.interchange 2 0 1) [[0, -1], [0, -2]]
    (.stencil "interchange" [[0, -1], [0, -2]])
  let wave ← config.arrayCase "wavefront" (← Domain.rect 1 n 1 n) wavefront
    stencilOffsets stencilRule
  let subTile ← config.arrayCase "sub_tile" tile wavefront stencilOffsets stencilRule
  let skew ← config.arrayCase "skew" tile (← Transform.ofRows [[1, 0], [1, 2]])
    [[-1, 0], [0, -1], [-1, 1]] (.stencil "skew" [[-1, 0], [0, -1], [1, -1]])
  let shearedTile ← config.arrayCase "sheared_tile" tile
    (← (NamedTransform.shear config.shearR config.shearT).matrix 2) stencilOffsets stencilRule
  let shearedLattice ← config.arrayCase "sheared_lattice" tile
    (← Transform.ofRows [[1, 1], [0, 2]]) stencilOffsets stencilRule
  let general ← config.arrayCase "general" tile (← Transform.ofRows config.general)
    [[-1, 0], [0, -1], [-1, 1]] (.stencil "general" [[-1, 0], [0, -1], [1, -1]])
  let lcs ← CaseSpec.lcs config.lcsLeft config.lcsRight
  return [identity, interchange, wave, subTile, skew, shearedTile, shearedLattice, general, lcs]

/-- The cases of the catalog. -/
def cases (config : CatalogConfig) : Except Error (List Case) := do
  (← config.specs).mapM Case.build

end CatalogConfig

end AffineLoops
