import AffineLoops.Case.Basic
/-!
# Summaries of cases

A summary lists the domain, the transform, the dependences and the rule of a case, followed by its
two nests.

## Main definitions

- `Case.summary` — the text of a summary
-/

namespace AffineLoops.Case

/-- The transform with its class and its determinant. -/
def describeTransform (t : Transform) : String :=
  t.render ++ " (" ++ t.classify.render ++ ", det " ++ toString t.determinant ++ ")"

/-- A title and, indented once more, the text of a nest. -/
def nestSection (text : Indented) (title : String) (nest : Nest) : Indented :=
  ((text.line title).indent.write nest.render).dedent

/-- The summary of a case. -/
def summary (c : Case) : String :=
  let heading := (({} : Indented).line ("== " ++ c.name ++ " ==")).indent
  let facts := heading.lines [
    "domain:      " ++ c.transformed.domain.render,
    "transform:   " ++ describeTransform c.transformed.transform,
    "dependences: " ++ c.dependences.render,
    "rule:        " ++ c.rule.render]
  (nestSection (nestSection facts "reference:" c.reference) "transformed:" c.transformed).text

end AffineLoops.Case
