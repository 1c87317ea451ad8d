/-
  GeometricAlgebra.Json.Token
  ────────────────────────────────
  **THE TOKENS OF JSON.**

  Punctuation, texts, numbers and the three literal names, and one more token
  for the place where a document stops being JSON.  A text is kept with what
  it stands for; a text whose escapes leave half of a surrogate pair stands
  for nothing, which matters only to those who read it.
-/
import GeometricAlgebra.Json.Number

namespace GeometricAlgebra.Json

/-- A token of a document. -/
inductive Token where
  | openObject
  | closeObject
  | openArray
  | closeArray
  | colon
  | comma
  /-- A text in quotation marks. -/
  | text (content : Option String)
  /-- A number. -/
  | number (value : Number)
  /-- One of `true` and `false`. -/
  | bool (value : Bool)
  /-- The literal `null`. -/
  | null
  /-- Something that is no token.  Nothing behind it is looked at. -/
  | malformed
  deriving DecidableEq, Repr

/-- Why a document cannot be read. -/
inductive Fault where
  /-- It is not JSON, or it ends too early. -/
  | malformed
  /-- It is JSON so far, but a value is not of the kind that belongs there. -/
  | mistyped
  deriving DecidableEq, Repr

/-- Why a token cannot stand where a value of another kind belongs.  The fault
of a well-formed value, or of a bracket that opens one, is its kind. -/
def Token.misfit : Token → Fault
  | .openObject | .openArray | .bool _ | .null => .mistyped
  | .text (some _) => .mistyped
  | .number (.natural _) | .number .other => .mistyped
  | _ => .malformed

end GeometricAlgebra.Json
