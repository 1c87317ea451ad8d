/-
  GeometricAlgebra.SignedText
  ────────────────────────────────
  **THE TEXT OF SIGNED SUMS.**

  A sum is written as pieces whose signs are pulled out: a minus in front of a
  first negative piece, and one of two joiners in front of each later piece.
  Both written forms of the library (`TextForm`) share this rule.
-/

namespace GeometricAlgebra

/-! ## §1. The two written forms. -/

/-- How algebra is written. -/
inductive TextForm where
  /-- Plain text with `*` and `**`, as a script would hold it. -/
  | plain
  /-- The body of a LaTeX alignment. -/
  | latex
  deriving DecidableEq, Repr

/-- What stands between the factors of a product. -/
def TextForm.times : TextForm → String
  | .plain => " * "
  | .latex => " "

/-! ## §2. Sums of signed pieces. -/

/-- One summand: whether it is subtracted, and its text without the sign. -/
structure SignedText where
  /-- True if the summand is subtracted. -/
  negative : Bool
  /-- The text behind the sign. -/
  body : String
  deriving DecidableEq, Repr

namespace SignedText

/-- A piece that opens a sum: only a minus is written. -/
def opening (piece : SignedText) : String :=
  if piece.negative then "-" ++ piece.body else piece.body

/-- A piece that continues a sum, behind the joiner for its sign. -/
def continuing (plus minus : String) (piece : SignedText) : String :=
  (if piece.negative then minus else plus) ++ piece.body

/-- The text of a sum; the empty sum is `0`. -/
def sum (lead plus minus : String) : List SignedText → String
  | [] => "0"
  | first :: rest => lead ++ first.opening ++ String.join (rest.map (continuing plus minus))

end SignedText

end GeometricAlgebra
