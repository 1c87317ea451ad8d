/-
  GeometricAlgebra.Multivector.Text
  ────────────────────────────────
  **THE TEXT OF A MULTIVECTOR.**

  Blades are listed by subset and not in storage order: from the scalar over
  the single axes up to the pseudoscalar.  Plain text names the axes `eminus`,
  `eplus`, `1e1`, `1e2` and `1e3`.  LaTeX trades the two conformal axes for
  the null vectors: behind each Euclidean blade `a` come `o a`, `∞ a` and
  `E a`, whose coefficients solve

      c₋ (e₋ a) + c₊ (e₊ a)  =  (c₋ − c₊) (o a) + ½ (c₋ + c₊) (∞ a).
-/
import GeometricAlgebra.Conformal

namespace GeometricAlgebra.Multivector

/-! ## §1. One term. -/

/-- A factor in front of a blade name; the scalar blade has an empty name. -/
def beforeBlade (form : TextForm) (factor name : String) : String :=
  if name = "" then factor else factor ++ form.times ++ name

/-- A coefficient of several terms, in parentheses and without a sign. -/
def renderCompound (form : TextForm) (p : Polynomial) (name : String) : Outcome SignedText := do
  let text ← p.render form
  return ⟨false, beforeBlade form ("(" ++ text ++ ")") name⟩

/-- A coefficient of one term.  Its sign is pulled out, and the number 1 is not
written in front of a name. -/
def renderSimple (form : TextForm) (p : Polynomial) (name : String) : Outcome SignedText := do
  let negative := p.terms.any (·.2.isNegative)
  let magnitude ← if negative then p.neg else .ok p
  if name ≠ "" ∧ magnitude.isNumber Fraction.one then return ⟨negative, name⟩
  else do
    let text ← magnitude.render form
    return ⟨negative, beforeBlade form text name⟩

/-- A coefficient with the name of its blade; nothing if it is zero. -/
def renderTerm (form : TextForm) (name : String) (p : Polynomial) : Outcome (List SignedText) :=
  match p.terms with
  | [] => .ok []
  | [_] => return [← renderSimple form p name]
  | _ => return [← renderCompound form p name]

/-! ## §2. Plain text over the axes. -/

/-- The plain name of an axis: the two conformal axes by word and the Euclidean
ones by number. -/
def axisName (axis : Axis) : String :=
  if axis = Conformal.minusAxis then "eminus"
  else if axis = Conformal.plusAxis then "eplus"
  else "1e" ++ Nat.repr (axis - 1)

/-- The plain name of a blade. -/
def bladeName (axes : Blade) : String :=
  String.intercalate "*" (axes.map axisName)

/-- The pieces of the plain text. -/
def plainPieces (a : Multivector) : Outcome (List SignedText) := do
  let pieces ← (Subsets.powerset metric.pseudoscalar).mapM (fun axes =>
    renderTerm .plain (bladeName axes) (a.coefficientOf axes))
  return pieces.flatten

/-! ## §3. LaTeX over the null basis. -/

/-- What is displayed in front of a Euclidean blade. -/
inductive NullPart where
  /-- Nothing. -/
  | euclidean
  /-- The origin. -/
  | origin
  /-- The point at infinity. -/
  | infinity
  /-- The plane of both. -/
  | plane
  deriving DecidableEq, Repr

/-- The order of display. -/
def NullPart.all : List NullPart := [.euclidean, .origin, .infinity, .plane]

/-- The Euclidean axes. -/
def euclideanAxes : Blade := metric.pseudoscalar.drop 2

/-- The displayed name of a part in front of the label of a Euclidean blade. -/
def NullPart.name (part : NullPart) (tail : String) : String :=
  match part with
  | .euclidean => tail
  | .origin => "o" ++ tail
  | .infinity => if tail = "" then "\\infty" else "\\infty " ++ tail
  | .plane => "E" ++ tail

/-- The coefficient of a part in front of a Euclidean blade. -/
def nullCoefficient (a : Multivector) (part : NullPart) (tail : Blade) : Outcome Polynomial :=
  let minus := a.coefficientOf (Conformal.minusAxis :: tail)
  let plus := a.coefficientOf (Conformal.plusAxis :: tail)
  match part with
  | .euclidean => .ok (a.coefficientOf tail)
  | .origin => minus.sub plus
  | .infinity => do
      let sum ← minus.add plus
      sum.scale Fraction.half
  | .plane => .ok (a.coefficientOf (Conformal.minusAxis :: Conformal.plusAxis :: tail))

/-- The pieces of the LaTeX text. -/
def latexPieces (a : Multivector) : Outcome (List SignedText) := do
  let places := (Subsets.powerset euclideanAxes).flatMap fun tail =>
    NullPart.all.map fun part => (part, tail)
  let pieces ← places.mapM fun (part, tail) => do
    let p ← a.nullCoefficient part tail
    renderTerm .latex (part.name (metric.label tail)) p
  return pieces.flatten

/-! ## §4. The whole text. -/

/-- The text of a multivector.  LaTeX starts a new aligned line for each term. -/
def render (form : TextForm) (a : Multivector) : Outcome String :=
  match form with
  | .plain => return SignedText.sum "" " + " " - " (← a.plainPieces)
  | .latex => return SignedText.sum "&= " "\\\\\n&+ " "\\\\\n&- " (← a.latexPieces)

end GeometricAlgebra.Multivector
