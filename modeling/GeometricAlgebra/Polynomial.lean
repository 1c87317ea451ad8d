/-
  GeometricAlgebra.Polynomial
  ────────────────────────────────
  **SPARSE POLYNOMIALS WITH EXACT COEFFICIENTS.**

  A polynomial is a sum of monomials with nonzero fractions, in monomial
  order.  The zero polynomial is the empty sum and nothing else is, so two
  polynomials are equal exactly when they are the same list of terms.
  Subtraction is addition of the opposite, and the opposite multiplies each
  coefficient by −1: it overflows on a coefficient that has no opposite.
-/
import GeometricAlgebra.Fraction
import GeometricAlgebra.Monomial
import GeometricAlgebra.SortedTerms

namespace GeometricAlgebra

/-! ## §1. Construction. -/

instance : Summand Fraction where
  add := Fraction.add
  isZero := Fraction.isZero

/-- A polynomial, as its terms in increasing order of monomials. -/
structure Polynomial where
  /-- The monomials that occur, each with its coefficient. -/
  terms : List (Monomial × Fraction)
  deriving DecidableEq, Repr

namespace Polynomial

/-- The normal form: monomials increase strictly, each with sorted names, and
each coefficient is a nonzero fraction in lowest terms. -/
def Canonical (p : Polynomial) : Prop :=
  SortedTerms.Canonical p.terms ∧
    ∀ t ∈ p.terms, t.1 = Monomial.ofNames t.1.names ∧ t.2.Normal

instance (p : Polynomial) : Decidable p.Canonical := inferInstanceAs (Decidable (_ ∧ _))

/-- The zero polynomial. -/
def zero : Polynomial := ⟨[]⟩

/-- The sum of the given terms.  Equal monomials are collected and terms that
cancel are dropped. -/
def ofTerms (terms : List (Monomial × Fraction)) : Outcome Polynomial :=
  return ⟨← SortedTerms.ofList terms⟩

/-- The constant polynomial of a fraction. -/
def constant (c : Fraction) : Polynomial :=
  if c.isZero then zero else ⟨[(Monomial.one, c)]⟩

/-- The constant polynomial of a whole number. -/
def ofInt (n : Int) : Polynomial := constant (Fraction.ofInt n)

/-- The constant polynomial 1. -/
def one : Polynomial := ofInt 1

/-- A single variable. -/
def var (name : String) : Polynomial :=
  ⟨[(Monomial.ofNames [name], Fraction.one)]⟩

/-! ## §2. Queries. -/

/-- The number of terms. -/
def size (p : Polynomial) : Nat := p.terms.length

/-- True of the zero polynomial. -/
def isZero (p : Polynomial) : Bool := p.terms.isEmpty

/-- True if no variable occurs. -/
def isConstant (p : Polynomial) : Bool := p.terms.all (·.1.isOne)

/-- The coefficient of a monomial; it is zero if the monomial is absent. -/
def coefficient (p : Polynomial) (m : Monomial) : Fraction :=
  (p.terms.lookup m).getD Fraction.zero

/-- The coefficient of the constant monomial. -/
def constantTerm (p : Polynomial) : Fraction := p.coefficient Monomial.one

/-- True if the polynomial is one constant term with this coefficient.  The
zero polynomial has no term, so it equals no number in this sense. -/
def isNumber (p : Polynomial) (c : Fraction) : Bool :=
  p.terms == [(Monomial.one, c)]

/-! ## §3. Arithmetic. -/

/-- The sum of two polynomials. -/
def add (p q : Polynomial) : Outcome Polynomial :=
  return ⟨← SortedTerms.accumulateAll p.terms q.terms⟩

/-- Multiply one coefficient of a term. -/
def scaleTerm (c : Fraction) (term : Monomial × Fraction) : Outcome (Monomial × Fraction) :=
  return (term.1, ← term.2.mul c)

/-- Multiply every coefficient by a fraction. -/
def scale (p : Polynomial) (c : Fraction) : Outcome Polynomial :=
  if c.isZero then .ok zero
  else return ⟨← p.terms.mapM (scaleTerm c)⟩

/-- The opposite of a polynomial. -/
def neg (p : Polynomial) : Outcome Polynomial := p.scale Fraction.minusOne

/-- The difference of two polynomials: the sum with the opposite. -/
def sub (p q : Polynomial) : Outcome Polynomial := do
  let opposite ← q.neg
  p.add opposite

/-- The product of two terms. -/
def mulTerm (s t : Monomial × Fraction) : Outcome (Monomial × Fraction) :=
  return (s.1.product t.1, ← s.2.mul t.2)

/-- The product of two polynomials: all products of a left and a right term,
collected. -/
def mul (p q : Polynomial) : Outcome Polynomial := do
  let rows ← p.terms.mapM (fun s => q.terms.mapM (mulTerm s))
  ofTerms rows.flatten

/-- Divide every coefficient by a fraction other than zero. -/
def divScalar (p : Polynomial) (c : Fraction) : Outcome Polynomial :=
  if c.isZero then .error .divisionByZero
  else do
    let r ← c.recip
    p.scale r

/-- The power of a polynomial, defined for the exponent 2 only. -/
def pow (p : Polynomial) (exponent : Nat) : Outcome Polynomial :=
  if exponent = 2 then p.mul p else .error (.unsupportedExponent exponent)

end Polynomial

/-- Polynomials are themselves summed as the coefficients of blades. -/
instance : Summand Polynomial where
  add := Polynomial.add
  isZero := Polynomial.isZero

end GeometricAlgebra
