/-
  GeometricAlgebra.Multivector.Products
  ────────────────────────────────
  **THE PRODUCTS OF GEOMETRIC ALGEBRA.**

  The geometric product multiplies blades by concatenation and reordering.
  The outer product and the left contraction are its parts of grade `r + s`
  and `s − r` for operands of grades `r` and `s`; they ask for homogeneous
  operands, except that zero times anything is zero.  Reversal, dual and
  inverse are built from these.
-/
import GeometricAlgebra.Multivector

namespace GeometricAlgebra.Multivector

/-! ## §1. The geometric product. -/

/-- The product of two terms. -/
def mulTerm (s t : Blade × Polynomial) : Outcome (Blade × Polynomial) := do
  let p ← s.2.mul t.2
  signedTerm (metric.canonicalizeKnown (s.1 ++ t.1)) p

/-- The geometric product: all products of a left and a right term, collected. -/
def mul (a b : Multivector) : Outcome Multivector := do
  let rows ← a.terms.mapM (fun s => b.terms.mapM (mulTerm s))
  ofBlades rows.flatten

/-- The power of a multivector, defined for the exponent 2 only. -/
def pow (a : Multivector) (exponent : Nat) : Outcome Multivector :=
  if exponent = 2 then a.mul a else .error (.unsupportedExponent exponent)

/-! ## §2. The graded products. -/

/-- The outer product: the part of the geometric product in the sum of the
grades. -/
def wedge (a b : Multivector) : Outcome Multivector :=
  if a.isZero || b.isZero then .ok zero
  else do
    let r ← a.grade
    let s ← b.grade
    let product ← a.mul b
    return product.project (r + s)

/-- The left contraction: the part of the geometric product in the grade of
the right operand less that of the left one, and zero if this is negative. -/
def leftContract (a b : Multivector) : Outcome Multivector :=
  if a.isZero || b.isZero then .ok zero
  else do
    let r ← a.grade
    let s ← b.grade
    if s < r then return zero
    else do
      let product ← a.mul b
      return product.project (s - r)

/-! ## §3. Reversal, dual and inverse. -/

/-- Write every blade backwards, and bring it into order again. -/
def rev (a : Multivector) : Outcome Multivector := do
  let reversed ← a.terms.mapM (fun t => signedTerm (metric.canonicalizeKnown t.1.reverse) t.2)
  ofBlades reversed

/-- The left contraction onto the pseudoscalar. -/
def dual (a : Multivector) : Outcome Multivector :=
  a.leftContract (unit metric.pseudoscalar)

/-- The reversed multivector over the scalar part of the product of a
multivector with it, which has to be a number other than zero. -/
def inverse (a : Multivector) : Outcome Multivector := do
  let reversed ← a.rev
  let norm ← a.mul reversed
  let r ← norm.scalarPart.recip
  reversed.scale r

end GeometricAlgebra.Multivector
