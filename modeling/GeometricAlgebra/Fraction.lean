/-
  GeometricAlgebra.Fraction
  ────────────────────────────────
  **EXACT FRACTIONS OF 64-BIT WORDS.**

  A fraction in normal form has a positive denominator that shares no factor
  with the numerator (`Fraction.Normal`).  Every constructor below answers in
  normal form and every operation keeps it.  The operations reduce before
  they multiply and go through the least common denominator when they add,
  and each intermediate word is checked: a sum may overflow on the way even
  though its reduced value would fit.
-/
import GeometricAlgebra.Word

namespace GeometricAlgebra

/-! ## §1. Fractions and their normal form. -/

/-- A fraction with numerator `num` and denominator `den`. -/
structure Fraction where
  /-- The numerator, which carries the sign. -/
  num : Int
  /-- The denominator. -/
  den : Int
  deriving DecidableEq, Repr

namespace Fraction

/-- Lowest terms over a positive denominator: the one way to write a rational
number. -/
def Normal (x : Fraction) : Prop := 0 < x.den ∧ Int.gcd x.num x.den = 1

instance (x : Fraction) : Decidable x.Normal := inferInstanceAs (Decidable (_ ∧ _))

/-- A whole number, over the denominator one. -/
def ofInt (n : Int) : Fraction := ⟨n, 1⟩

/-- The fraction 0. -/
def zero : Fraction := ofInt 0

/-- The fraction 1. -/
def one : Fraction := ofInt 1

/-- The fraction −1. -/
def minusOne : Fraction := ofInt (-1)

/-- The fraction 1/2. -/
def half : Fraction := ⟨1, 2⟩

/-- True of the number zero. -/
def isZero (x : Fraction) : Bool := x.num == 0

/-- True of the whole numbers. -/
def isInteger (x : Fraction) : Bool := x.den == 1

/-- True of the numbers below zero. -/
def isNegative (x : Fraction) : Bool := decide (x.num < 0)

/-! ## §2. Reduction. -/

/-- Greatest common divisor.  It overflows only when it is 2⁶³, which needs
both words among 0 and −2⁶³. -/
def gcd (m n : Int) : Outcome Int := Word.ofInt (Int.gcd m n)

/-- Least common multiple of two positive words. -/
def lcm (m n : Int) : Outcome Int := do
  let g ← gcd m n
  Word.ofInt (m * (n / g))

/-- The fraction `num / den` in normal form.  A negative denominator gives its
sign to the numerator. -/
def reduce (num den : Int) : Outcome Fraction :=
  if den = 0 then .error .zeroDenominator
  else if num = 0 then .ok zero
  else if num = den then .ok one
  else do
    let g ← gcd num den
    if den < 0 then
      let n ← Word.ofInt (-(num / g))
      let d ← Word.ofInt (-(den / g))
      return ⟨n, d⟩
    else
      return ⟨num / g, den / g⟩

/-! ## §3. Arithmetic. -/

/-- The sum of two fractions, over their common denominator. -/
def add (x y : Fraction) : Outcome Fraction :=
  if x.den = y.den then do
    let n ← Word.ofInt (x.num + y.num)
    reduce n x.den
  else do
    let l ← lcm x.den y.den
    let a ← Word.ofInt (x.num * (l / x.den))
    let b ← Word.ofInt (y.num * (l / y.den))
    let n ← Word.ofInt (a + b)
    reduce n l

/-- The product of two fractions, cancelled crosswise before the words are
multiplied. -/
def mul (x y : Fraction) : Outcome Fraction := do
  let g ← gcd x.num y.den
  let h ← gcd x.den y.num
  let n ← Word.ofInt ((x.num / g) * (y.num / h))
  let d ← Word.ofInt ((x.den / h) * (y.den / g))
  reduce n d

/-- The opposite of a fraction. -/
def neg (x : Fraction) : Outcome Fraction := do
  let n ← Word.ofInt (-x.num)
  return ⟨n, x.den⟩

/-- The reciprocal of a fraction other than zero. -/
def recip (x : Fraction) : Outcome Fraction :=
  if x.num = 0 then .error .divisionByZero
  else if 0 < x.num then .ok ⟨x.den, x.num⟩
  else do
    let n ← Word.ofInt (-x.den)
    let d ← Word.ofInt (-x.num)
    return ⟨n, d⟩

/-- The distance of a fraction from zero. -/
def abs (x : Fraction) : Outcome Fraction :=
  if x.isNegative then x.neg else .ok x

/-! ## §4. Text. -/

/-- A fraction as `n`, or as `n/d` when it is not whole. -/
def text (x : Fraction) : String :=
  if x.isInteger then Int.repr x.num else Int.repr x.num ++ "/" ++ Int.repr x.den

/-! ## §5. Normal forms of the constants. -/

theorem normal_ofInt (n : Int) : (ofInt n).Normal := ⟨Int.one_pos, Int.gcd_one⟩

theorem normal_half : half.Normal := by decide

theorem isZero_iff {x : Fraction} : x.isZero = true ↔ x.num = 0 := beq_iff_eq

end Fraction

end GeometricAlgebra
