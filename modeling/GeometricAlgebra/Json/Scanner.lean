/-
  GeometricAlgebra.Json.Scanner
  ────────────────────────────────
  **FROM CHARACTERS TO TOKENS, ONE CHARACTER AT A TIME.**

  The scanner is a machine: `Scanner.step` takes a state and a character to
  the next state and the tokens that this character completes, and
  `Scanner.finish` gives the tokens that the end of the document completes.
  A number is completed by the first character behind it, so one step may
  yield two tokens.  After a malformed token the scanner stops.
-/
import GeometricAlgebra.Json.Token

namespace GeometricAlgebra.Json

/-! ## §1. States. -/

/-- How far a number has been written. -/
inductive NumberPhase where
  /-- Behind the minus sign. -/
  | minus
  /-- Behind a leading zero. -/
  | zero
  /-- Within the digits in front of the decimal point. -/
  | whole
  /-- Behind the decimal point. -/
  | point
  /-- Within the digits behind the decimal point. -/
  | fraction
  /-- Behind the `e`. -/
  | exponentMark
  /-- Behind the sign of the exponent. -/
  | exponentSign
  /-- Within the digits of the exponent. -/
  | exponent
  deriving DecidableEq, Repr

/-- Where the scanner stands.  What it has read of a token is kept in reverse. -/
inductive Scanner where
  /-- Between two tokens. -/
  | between
  /-- In a number. -/
  | number (phase : NumberPhase) (lexeme : List Char)
  /-- In a text, after these code units. -/
  | text (units : List Nat)
  /-- In a text, behind a backslash. -/
  | escape (units : List Nat)
  /-- In a text, within the four digits of `\u`: how many are missing, and the
  value of those that were read. -/
  | hex (units : List Nat) (missing value : Nat)
  /-- In a literal name: what is missing, and the token for the whole. -/
  | name (missing : List Char) (token : Token)
  /-- Behind a malformed token. -/
  | stopped
  deriving DecidableEq, Repr

namespace Scanner

/-! ## §2. Numbers. -/

/-- The phases in which a number may end. -/
def isComplete : NumberPhase → Bool
  | .zero | .whole | .fraction | .exponent => true
  | _ => false

/-- The phase behind one more character of a number, if the character belongs
to the number. -/
def nextPhase (phase : NumberPhase) (c : Char) : Option NumberPhase :=
  match phase with
  | .minus => if c = '0' then some .zero else if c.isDigit then some .whole else none
  | .zero => if c = '.' then some .point else mark
  | .whole => if c.isDigit then some .whole else if c = '.' then some .point else mark
  | .point => if c.isDigit then some .fraction else none
  | .fraction => if c.isDigit then some .fraction else mark
  | .exponentMark =>
      if c = '+' ∨ c = '-' then some .exponentSign
      else if c.isDigit then some .exponent else none
  | .exponentSign => if c.isDigit then some .exponent else none
  | .exponent => if c.isDigit then some .exponent else none
where
  mark : Option NumberPhase := if c = 'e' ∨ c = 'E' then some .exponentMark else none

/-- The token of a number that ends here. -/
def endNumber (phase : NumberPhase) (lexeme : List Char) : Token :=
  if isComplete phase then .number (Number.ofLexeme lexeme.reverse) else .malformed

/-! ## §3. Texts. -/

/-- True of the first half of a surrogate pair. -/
def isHighSurrogate (unit : Nat) : Bool := 0xD800 ≤ unit && unit < 0xDC00

/-- True of the second half of a surrogate pair. -/
def isLowSurrogate (unit : Nat) : Bool := 0xDC00 ≤ unit && unit < 0xE000

/-- Append a code unit; a second half joins a first half in front of it. -/
def pushUnit (units : List Nat) (unit : Nat) : List Nat :=
  match units with
  | high :: rest =>
      if isHighSurrogate high && isLowSurrogate unit then
        (0x10000 + (high - 0xD800) * 0x400 + (unit - 0xDC00)) :: rest
      else unit :: units
  | [] => [unit]

/-- The text of code units in reverse, if no half of a pair stands alone. -/
def contentOf (units : List Nat) : Option String :=
  if units.any (fun unit => isHighSurrogate unit || isLowSurrogate unit) then none
  else some (String.ofList (units.reverse.map Char.ofNat))

/-- The character that a backslash and a letter stand for. -/
def escaped : Char → Option Char
  | '"' => some '"'
  | '\\' => some '\\'
  | '/' => some '/'
  | 'b' => some '\x08'
  | 'f' => some '\x0c'
  | 'n' => some '\n'
  | 'r' => some '\r'
  | 't' => some '\t'
  | _ => none

/-- The value of a hexadecimal digit. -/
def hexValue (c : Char) : Option Nat :=
  if c.isDigit then some (c.toNat - '0'.toNat)
  else if 'a' ≤ c ∧ c ≤ 'f' then some (c.toNat - 'a'.toNat + 10)
  else if 'A' ≤ c ∧ c ≤ 'F' then some (c.toNat - 'A'.toNat + 10)
  else none

/-! ## §4. Steps. -/

/-- The white space of JSON. -/
def isSpace (c : Char) : Bool := c == ' ' || c == '\t' || c == '\n' || c == '\r'

/-- Give up. -/
def fail : Scanner × List Token := (.stopped, [.malformed])

/-- The step from between two tokens. -/
def begin (c : Char) : Scanner × List Token :=
  match c with
  | '\x7b' => (.between, [.openObject])
  | '\x7d' => (.between, [.closeObject])
  | '[' => (.between, [.openArray])
  | ']' => (.between, [.closeArray])
  | ':' => (.between, [.colon])
  | ',' => (.between, [.comma])
  | '"' => (.text [], [])
  | '-' => (.number .minus [c], [])
  | '0' => (.number .zero [c], [])
  | 't' => (.name ['r', 'u', 'e'] (.bool true), [])
  | 'f' => (.name ['a', 'l', 's', 'e'] (.bool false), [])
  | 'n' => (.name ['u', 'l', 'l'] .null, [])
  | _ =>
      if isSpace c then (.between, [])
      else if c.isDigit then (.number .whole [c], [])
      else fail

/-- The step within a number.  A digit behind a leading zero is not allowed. -/
def stepNumber (phase : NumberPhase) (lexeme : List Char) (c : Char) : Scanner × List Token :=
  match nextPhase phase c with
  | some phase' => (.number phase' (c :: lexeme), [])
  | none =>
      if isComplete phase && !(phase == .zero && c.isDigit) then
        let next := begin c
        (next.1, endNumber phase lexeme :: next.2)
      else fail

/-- The step within a text.  Control characters have to be escaped. -/
def stepText (units : List Nat) (c : Char) : Scanner × List Token :=
  if c = '"' then (.between, [.text (contentOf units)])
  else if c = '\\' then (.escape units, [])
  else if c.toNat < 0x20 then fail
  else (.text (pushUnit units c.toNat), [])

/-- The step behind a backslash. -/
def stepEscape (units : List Nat) (c : Char) : Scanner × List Token :=
  if c = 'u' then (.hex units 4 0, [])
  else match escaped c with
    | some e => (.text (pushUnit units e.toNat), [])
    | none => fail

/-- The step within the digits of `\u`. -/
def stepHex (units : List Nat) (missing value : Nat) (c : Char) : Scanner × List Token :=
  match hexValue c with
  | none => fail
  | some digit =>
      let value := value * 16 + digit
      if missing ≤ 1 then (.text (pushUnit units value), [])
      else (.hex units (missing - 1) value, [])

/-- The step within a literal name. -/
def stepName (missing : List Char) (token : Token) (c : Char) : Scanner × List Token :=
  match missing with
  | [] => fail
  | [last] => if c = last then (.between, [token]) else fail
  | next :: rest => if c = next then (.name rest token, []) else fail

/-- Read one character. -/
def step (scanner : Scanner) (c : Char) : Scanner × List Token :=
  match scanner with
  | .between => begin c
  | .number phase lexeme => stepNumber phase lexeme c
  | .text units => stepText units c
  | .escape units => stepEscape units c
  | .hex units missing value => stepHex units missing value c
  | .name missing token => stepName missing token c
  | .stopped => (.stopped, [])

/-- The tokens that are completed by the end of the document. -/
def finish : Scanner → List Token
  | .between | .stopped => []
  | .number phase lexeme => [endNumber phase lexeme]
  | _ => [.malformed]

end Scanner

end GeometricAlgebra.Json
