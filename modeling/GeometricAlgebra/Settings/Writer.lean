/-
  GeometricAlgebra.Settings.Writer
  ────────────────────────────────
  **SETTINGS AS JSON.**

  The document that holds all five settings, with two blanks of indentation
  for each level and no newline at the end.  Texts are quoted: quotation
  marks, backslashes and control characters are escaped and nothing else is.
-/
import GeometricAlgebra.Settings.Reader

namespace GeometricAlgebra.Settings

/-! ## §1. Quoted texts. -/

/-- The hexadecimal digit of a number below 16. -/
def hexDigit (n : Nat) : Char :=
  if n < 10 then Char.ofNat ('0'.toNat + n) else Char.ofNat ('a'.toNat + (n - 10))

/-- The spelling of a character within a text. -/
def escapeChar (c : Char) : List Char :=
  if c = '"' then ['\\', '"']
  else if c = '\\' then ['\\', '\\']
  else if c = '\x08' then ['\\', 'b']
  else if c = '\x0c' then ['\\', 'f']
  else if c = '\n' then ['\\', 'n']
  else if c = '\r' then ['\\', 'r']
  else if c = '\t' then ['\\', 't']
  else if c.toNat < 0x20 then
    ['\\', 'u', '0', '0', hexDigit (c.toNat / 16), hexDigit (c.toNat % 16)]
  else [c]

/-- A text in quotation marks. -/
def quote (text : String) : String :=
  "\"" ++ String.ofList (text.toList.flatMap escapeChar) ++ "\""

/-! ## §2. The document. -/

/-- The written value of a setting. -/
def Field.write (field : Field) (s : Settings) : String :=
  match field with
  | .dimensions => Nat.repr s.dimensions
  | .symbols => quote s.symbols
  | .negativeAxis => quote (String.singleton s.negativeAxis)
  | .scalarType => quote s.scalarType
  | .recordStem => quote s.recordStem

/-- A member of the settings object, on a line of its own. -/
def memberLine (s : Settings) (field : Field) : String :=
  "    " ++ quote field.name ++ ": " ++ field.write s

/-- The document with these settings. -/
def toJson (s : Settings) : String :=
  "\x7b\n  " ++ quote Place.settingsName ++ ": \x7b\n"
    ++ String.intercalate ",\n" (Field.all.map s.memberLine)
    ++ "\n  \x7d\n\x7d"

end GeometricAlgebra.Settings
