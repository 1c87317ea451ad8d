/-
  GeometricAlgebra.Multivector
  ────────────────────────────────
  **MULTIVECTORS OF CONFORMAL SPACE.**

  A multivector is a sum of canonical blades over `- + x y z`, each with a
  nonzero polynomial, in lexicographic order of the blades.  Labels need not
  be canonical when a multivector is built: their sign goes into the
  coefficient.  Equal multivectors are equal lists.
-/
import GeometricAlgebra.Metric.Label
import GeometricAlgebra.Polynomial.Text

namespace GeometricAlgebra

/-- A sum of canonical blades with polynomial coefficients. -/
structure Multivector where
  /-- The blades that occur, each with its coefficient. -/
  terms : List (Blade × Polynomial)
  deriving DecidableEq, Repr

namespace Multivector

/-! ## §1. Construction. -/

/-- The metric in which every multivector is expressed. -/
def metric : Metric := Metric.conformalSpace

/-- The normal form: blades are canonical words of the alphabet and increase
strictly, and coefficients are canonical polynomials other than zero. -/
def Canonical (a : Multivector) : Prop :=
  SortedTerms.Canonical a.terms ∧
    ∀ t ∈ a.terms,
      t.1.Pairwise (· < ·) ∧ (∀ axis ∈ t.1, axis < metric.size) ∧ t.2.Canonical

instance (a : Multivector) : Decidable a.Canonical := inferInstanceAs (Decidable (_ ∧ _))

/-- The zero multivector. -/
def zero : Multivector := ⟨[]⟩

/-- The sum of canonical blades with coefficients. -/
def ofBlades (terms : List (Blade × Polynomial)) : Outcome Multivector :=
  return ⟨← SortedTerms.ofList terms⟩

/-- A term on a signed blade, with the sign moved into the coefficient. -/
def signedTerm (blade : SignedBlade) (p : Polynomial) : Outcome (Blade × Polynomial) :=
  return (blade.axes, ← p.scale blade.sign.toFraction)

/-- Add a term whose blade is spelled by a label. -/
def addLabelled (terms : List (Blade × Polynomial)) (term : String × Polynomial) :
    Outcome (List (Blade × Polynomial)) := do
  let blade ← metric.canonicalizeWord term.1
  let signed ← signedTerm blade term.2
  SortedTerms.accumulate terms signed

/-- The sum of labelled terms, added one after the other. -/
def ofTerms (terms : List (String × Polynomial)) : Outcome Multivector :=
  return ⟨← terms.foldlM addLabelled []⟩

/-- The multivector of a polynomial, of grade 0. -/
def scalar (p : Polynomial) : Multivector :=
  if p.isZero then zero else ⟨[([], p)]⟩

/-- The blade with this label and coefficient 1. -/
def blade (label : String) : Outcome Multivector := ofTerms [(label, Polynomial.one)]

/-- A canonical blade with coefficient 1. -/
def unit (axes : Blade) : Multivector := ⟨[(axes, Polynomial.one)]⟩

/-- A multiple of a basis vector. -/
def vector (axis : Axis) (p : Polynomial) : Outcome Multivector := do
  let blade ← metric.canonicalize [axis]
  let signed ← signedTerm blade p
  ofBlades [signed]

/-! ## §2. Queries. -/

/-- The number of blades. -/
def size (a : Multivector) : Nat := a.terms.length

/-- True of the zero multivector. -/
def isZero (a : Multivector) : Bool := a.terms.isEmpty

/-- The coefficient of a canonical blade; it is zero if the blade is absent. -/
def coefficientOf (a : Multivector) (axes : Blade) : Polynomial :=
  (a.terms.lookup axes).getD Polynomial.zero

/-- The coefficient of the blade with a label, with the sign of the label. -/
def coefficient (a : Multivector) (label : String) : Outcome Polynomial := do
  let blade ← metric.canonicalizeWord label
  (a.coefficientOf blade.axes).scale blade.sign.toFraction

/-- The coefficient of the empty blade. -/
def scalarPart (a : Multivector) : Polynomial := a.coefficientOf []

/-- The common grade of all blades, if there is one. -/
def grade (a : Multivector) : Outcome Nat :=
  match a.terms with
  | [] => .error .gradeUndefined
  | first :: rest =>
      if rest.all (fun t => t.1.length == first.1.length) then .ok first.1.length
      else .error .gradeUndefined

/-- The part of one grade. -/
def project (a : Multivector) (grade : Nat) : Multivector :=
  ⟨a.terms.filter (fun t => t.1.length == grade)⟩

/-! ## §3. The module structure. -/

/-- The sum of two multivectors. -/
def add (a b : Multivector) : Outcome Multivector :=
  return ⟨← SortedTerms.accumulateAll a.terms b.terms⟩

/-- Multiply every coefficient by a polynomial. -/
def scale (a : Multivector) (p : Polynomial) : Outcome Multivector := do
  let scaled ← a.terms.mapM (fun t => return (t.1, ← t.2.mul p))
  ofBlades scaled

/-- The opposite of a multivector. -/
def neg (a : Multivector) : Outcome Multivector := a.scale (Polynomial.ofInt (-1))

/-- The difference of two multivectors: the sum with the opposite. -/
def sub (a b : Multivector) : Outcome Multivector := do
  let opposite ← b.neg
  a.add opposite

/-- Divide every coefficient by a fraction.  The zero multivector has no
coefficient, so it survives even the division by zero. -/
def divScalar (a : Multivector) (c : Fraction) : Outcome Multivector := do
  let divided ← a.terms.mapM (fun t => return (t.1, ← t.2.divScalar c))
  ofBlades divided

end Multivector

end GeometricAlgebra
