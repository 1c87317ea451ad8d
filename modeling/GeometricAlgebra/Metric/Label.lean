/-
  GeometricAlgebra.Metric.Label
  ────────────────────────────────
  **BLADES WRITTEN WITH SYMBOLS.**

  A label spells a word of axes, one symbol for each axis and with nothing
  between them; the empty label is the scalar blade.
-/
import GeometricAlgebra.Metric.Canonical

namespace GeometricAlgebra.Metric

/-- The axis of one character of a label. -/
def parseSymbol (metric : Metric) (label : String) (c : Char) : Outcome Axis :=
  match metric.axisOf c with
  | some axis => .ok axis
  | none => .error (.malformedBlade (.foreignSymbol c label metric.alphabet))

/-- The word that a label spells, in the order of the label. -/
def parse (metric : Metric) (label : String) : Outcome Blade :=
  label.toList.mapM (metric.parseSymbol label)

/-- The label of a word. -/
def label (metric : Metric) (word : Blade) : String :=
  String.ofList (word.map metric.symbol)

/-- The canonical form of the word that a label spells. -/
def canonicalizeWord (metric : Metric) (label : String) : Outcome SignedBlade := do
  let word ← metric.parse label
  metric.canonicalize word

/-- The canonical form of a label, as a label and a sign. -/
def canonicalizeLabel (metric : Metric) (label : String) : Outcome (String × Sign) := do
  let blade ← metric.canonicalizeWord label
  return (metric.label blade.axes, blade.sign)

end GeometricAlgebra.Metric
