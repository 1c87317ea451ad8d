/-
  GeometricAlgebra.Polynomial.Text
  ────────────────────────────────
  **THE TEXT OF A POLYNOMIAL.**

  Terms appear in monomial order.  Exponents are collected, as numbers without a
  bound (see `Monomial.powers`), a coefficient 1 is written only where it stands
  alone, and signs go into the joiners.  Because the sign is pulled out, the text
  needs the distance of each coefficient from zero, which the least word does not
  have: its rendering overflows.

  Inverting a polynomial stands here too, since its failure quotes the text.
-/
import GeometricAlgebra.Polynomial
import GeometricAlgebra.SignedText

namespace GeometricAlgebra

/-! ## §1. Factors. -/

/-- A fraction that is not negative, in the given form. -/
def Fraction.render (form : TextForm) (x : Fraction) : String :=
  if x.isInteger then Int.repr x.num
  else match form with
    | .plain => x.text
    | .latex => "\\frac\x7b" ++ Int.repr x.num ++ "\x7d\x7b" ++ Int.repr x.den ++ "\x7d"

/-- A power of a variable.  The exponent 1 is not written; in LaTeX the base is
braced and the exponent is not. -/
def Monomial.renderPower (form : TextForm) (power : String × Nat) : String :=
  if power.2 = 1 then power.1
  else match form with
    | .plain => power.1 ++ "**" ++ Nat.repr power.2
    | .latex => "\x7b" ++ power.1 ++ "\x7d^" ++ Nat.repr power.2

/-- The powers of a monomial, joined as factors. -/
def Monomial.render (form : TextForm) (m : Monomial) : String :=
  String.intercalate form.times (m.powers.map (renderPower form))

namespace Polynomial

/-! ## §2. Terms and sums. -/

/-- A term without its sign, given the distance of its coefficient from zero. -/
def renderMagnitude (form : TextForm) (m : Monomial) (magnitude : Fraction) : String :=
  if m.isOne then magnitude.render form
  else if magnitude = Fraction.one then m.render form
  else magnitude.render form ++ form.times ++ m.render form

/-- A term as a signed piece. -/
def renderTerm (form : TextForm) (term : Monomial × Fraction) : Outcome SignedText := do
  let magnitude ← term.2.abs
  return ⟨term.2.isNegative, renderMagnitude form term.1 magnitude⟩

/-- The text of a polynomial. -/
def render (form : TextForm) (p : Polynomial) : Outcome String := do
  let pieces ← p.terms.mapM (renderTerm form)
  return SignedText.sum "" " + " " - " pieces

/-! ## §3. Inversion. -/

/-- The reciprocal of a polynomial that is one constant term.  Every other
polynomial is refused under its plain text. -/
def recip (p : Polynomial) : Outcome Polynomial :=
  match p.terms with
  | [] => .error (.notInvertible "0")
  | [(m, c)] =>
      if m.isOne then return constant (← c.recip) else refuse
  | _ => refuse
where
  refuse : Outcome Polynomial := do
    let text ← p.render .plain
    .error (.notInvertible text)

end Polynomial

end GeometricAlgebra
