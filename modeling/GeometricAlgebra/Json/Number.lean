/-
  GeometricAlgebra.Json.Number
  ────────────────────────────────
  **NUMBERS AS THEY ARE WRITTEN IN JSON.**

  A settings file holds one number, and it is a natural one.  A number is
  therefore sorted into three kinds by its spelling (`Number.ofLexeme`):
  natural numbers of an unsigned word, other numbers, and those beyond the
  range of double-precision floats, which cannot even be read.

  The last kind is decided as follows.  The spelling is condensed to
  `mantissa · 10^exponent`: digits enter the mantissa as long as it fits an
  unsigned word; later whole digits only raise the exponent, and fraction
  digits behind the first that does not fit are dropped.  The mantissa and the
  power of ten are rounded to doubles and multiplied, and the number is out of
  range if the rounded product is.
-/
import GeometricAlgebra.Word

namespace GeometricAlgebra.Json

/-! ## §1. Kinds of numbers. -/

/-- What a number can be used for. -/
inductive Number where
  /-- A natural number below 2⁶⁴, written with digits only. -/
  | natural (value : Nat)
  /-- Any other number within the range of doubles. -/
  | other
  /-- A number beyond the range of doubles. -/
  | excessive
  deriving DecidableEq, Repr

/-- The value of a decimal digit. -/
def digitValue (c : Char) : Nat := c.toNat - '0'.toNat

/-- The value of a list of decimal digits. -/
def decimalValue (digits : List Char) : Nat :=
  digits.foldl (fun value c => value * 10 + digitValue c) 0

/-! ## §2. Condensed numbers. -/

/-- The number `mantissa · 10^exponent`.  It is `full` once a digit did not fit
the mantissa. -/
structure Condensed where
  /-- The leading digits. -/
  mantissa : Nat
  /-- The power of ten. -/
  exponent : Int
  /-- True once a digit was turned away. -/
  full : Bool
  deriving DecidableEq, Repr

namespace Condensed

/-- Take in a digit in front of the decimal point. -/
def wholeDigit (n : Condensed) (c : Char) : Condensed :=
  let grown := n.mantissa * 10 + digitValue c
  if n.full || Word.bound ≤ grown then { n with exponent := n.exponent + 1, full := true }
  else { n with mantissa := grown }

/-- Take in a digit behind the decimal point. -/
def fractionDigit (n : Condensed) (c : Char) : Condensed :=
  let grown := n.mantissa * 10 + digitValue c
  if n.full || Word.bound ≤ grown then { n with full := true }
  else { n with mantissa := grown, exponent := n.exponent - 1 }

/-- Condense the digits of a number with its written exponent. -/
def ofDigits (whole fraction : List Char) (exponent : Int) : Condensed :=
  let n := whole.foldl wholeDigit ⟨0, 0, false⟩
  let n := fraction.foldl fractionDigit { n with full := false }
  { n with exponent := n.exponent + exponent }

end Condensed

/-! ## §3. The range of doubles. -/

/-- The nearest number with 53 binary digits; a tie goes to the even one. -/
def nearestDouble (n : Nat) : Nat :=
  let excess := n.log2 - 52
  let unit := Nat.pow 2 excess
  let quotient := n / unit
  let remainder := 2 * (n % unit)
  if unit < remainder ∨ (unit = remainder ∧ quotient % 2 = 1) then (quotient + 1) * unit
  else quotient * unit

/-- The least number that no longer rounds to a finite double. -/
def doubleBound : Nat := Nat.pow 2 1024 - Nat.pow 2 970

/-- True if the rounded number is beyond the range of doubles. -/
def Condensed.isExcessive (n : Condensed) : Bool :=
  if n.mantissa = 0 ∨ n.exponent < 0 then false
  else if 308 < n.exponent then true
  else doubleBound ≤ nearestDouble n.mantissa * nearestDouble (Nat.pow 10 n.exponent.toNat)

/-! ## §4. Spellings. -/

/-- The written exponent at the end of a number; it is zero if there is none. -/
def exponentOf : List Char → Int
  | _ :: '-' :: digits => -(decimalValue digits : Int)
  | _ :: '+' :: digits => decimalValue digits
  | _ :: digits => decimalValue digits
  | [] => 0

/-- The kind of a number with this well-formed spelling. -/
def Number.ofLexeme (lexeme : List Char) : Number :=
  let negative := lexeme.head? == some '-'
  let unsigned := if negative then lexeme.drop 1 else lexeme
  let whole := unsigned.takeWhile Char.isDigit
  let rest := unsigned.dropWhile Char.isDigit
  if rest = [] ∧ negative = false ∧ decimalValue whole < Word.bound then
    .natural (decimalValue whole)
  else
    let fraction := if rest.head? = some '.' then (rest.drop 1).takeWhile Char.isDigit else []
    let exponent := exponentOf (rest.drop (if rest.head? = some '.' then fraction.length + 1 else 0))
    if (Condensed.ofDigits whole fraction exponent).isExcessive then .excessive else .other

end GeometricAlgebra.Json
