/-
  GeometricAlgebra.Failure
  ────────────────────────────────
  **WHY AN OPERATION HAS NO ANSWER.**

  Coefficients are fractions of 64-bit words, labels come from the user and
  settings come from a file, so many operations are partial.  Each of them is
  a total function into `Outcome`: an answer, or the cause of its absence.
  Causes are data; their wording is written once, in the `message` functions.
-/

namespace GeometricAlgebra

/-! ## §1. Causes. -/

/-- What is wrong with the spelling of a blade. -/
inductive BladeFault where
  /-- A character of a label is no symbol of the alphabet. -/
  | foreignSymbol (symbol : Char) (label alphabet : String)
  /-- Some axis numbers are not below the size of the alphabet; they are kept
  in the order in which they were met. -/
  | foreignAxes (axes : List Nat) (size : Nat)
  deriving DecidableEq, Repr

/-- What is wrong with the settings of a kernel generator, or with the axis
alphabet that they describe. -/
inductive SettingsFault where
  /-- No Euclidean axis is asked for. -/
  | noDimension
  /-- The alphabet has too few symbols for the dimensions and the two
  conformal axes. -/
  | tooFewSymbols (dimensions available : Nat) (symbols : String)
  /-- An axis symbol that is used is not one of `a` to `z`. -/
  | symbolNotLowercase (symbol : Char)
  /-- The axis to square to −1 is not one of the two conformal axes. -/
  | negativeAxisNotConformal (symbol : Char) (conformal : String)
  /-- The scalar type or the record name stem consists of blanks only. -/
  | blankName
  /-- An alphabet has more axes than a blade can number. -/
  | tooManyAxes (count : Nat)
  /-- Two axes share a symbol. -/
  | repeatedSymbol (symbol : Char)
  /-- The axis to square to −1 is not in the alphabet at all. -/
  | negativeAxisMissing (symbol : Char) (alphabet : String)
  deriving DecidableEq, Repr

/-- Why an operation of the algebra or of the generator has no answer. -/
inductive Failure where
  /-- A step of exact arithmetic left the range of 64-bit words. -/
  | overflow
  /-- A fraction was written with denominator zero. -/
  | zeroDenominator
  /-- A value was divided by the number zero. -/
  | divisionByZero
  /-- A power other than the square was asked for. -/
  | unsupportedExponent (exponent : Nat)
  /-- The value with this text has no inverse. -/
  | notInvertible (text : String)
  /-- The zero multivector and mixtures of grades have no grade. -/
  | gradeUndefined
  /-- A blade is not spelled with the axes at hand. -/
  | malformedBlade (fault : BladeFault)
  /-- A generator or an alphabet cannot be built from its settings. -/
  | invalidSettings (fault : SettingsFault)
  deriving DecidableEq, Repr

/-- The answer of an operation, or the cause why it has none. -/
abbrev Outcome := Except Failure

/-- Two outcomes can be compared as soon as their answers can. -/
instance {α : Type} [DecidableEq α] : DecidableEq (Outcome α)
  | .ok a, .ok b =>
      if h : a = b then isTrue (congrArg _ h) else isFalse (fun e => h (Except.ok.inj e))
  | .error e, .error f =>
      if h : e = f then isTrue (congrArg _ h) else isFalse (fun g => h (Except.error.inj g))
  | .ok _, .error _ => isFalse nofun
  | .error _, .ok _ => isFalse nofun

/-! ## §2. Wording. -/

/-- Axis numbers in brackets, separated by a comma and a blank. -/
def bracketed (axes : List Nat) : String :=
  "[" ++ String.intercalate ", " (axes.map Nat.repr) ++ "]"

/-- The wording of a blade fault. -/
def BladeFault.message : BladeFault → String
  | .foreignSymbol symbol label alphabet =>
      s!"symbol '{symbol}' in \"{label}\" is not one of \"{alphabet}\""
  | .foreignAxes axes size =>
      s!"axes {bracketed axes} are outside a {size}-axis alphabet"

/-- The wording of a settings fault. -/
def SettingsFault.message : SettingsFault → String
  | .noDimension => "at least one spatial dimension is required"
  | .tooFewSymbols dimensions available symbols =>
      s!"{dimensions} dimensions need more axis symbols than the {available} in \"{symbols}\""
  | .symbolNotLowercase symbol =>
      s!"axis symbol '{symbol}' is not an ASCII lowercase letter"
  | .negativeAxisNotConformal symbol conformal =>
      s!"negative axis '{symbol}' must be one of the two conformal axes \"{conformal}\""
  | .blankName => "scalar type and record prefix must be nonempty"
  | .tooManyAxes count => s!"{count} axes exceed the supported maximum"
  | .repeatedSymbol symbol => s!"axis symbol '{symbol}' appears twice"
  | .negativeAxisMissing symbol alphabet =>
      s!"negative-square axis '{symbol}' is not in alphabet \"{alphabet}\""

/-- The wording of a failure. -/
def Failure.message : Failure → String
  | .overflow => "arithmetic overflow"
  | .zeroDenominator => "denominator == 0"
  | .divisionByZero => "division by zero"
  | .unsupportedExponent exponent =>
      s!"unsupported exponent {exponent}: only squaring is defined"
  | .notInvertible text => s!"cannot invert {text}"
  | .gradeUndefined => "grade is undefined for an empty or mixed-grade multivector"
  | .malformedBlade fault => s!"malformed blade: {fault.message}"
  | .invalidSettings fault => s!"invalid generator configuration: {fault.message}"

end GeometricAlgebra
