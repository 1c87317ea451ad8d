/-
  GeometricAlgebra.Settings.Reader
  ────────────────────────────────
  **SETTINGS FROM JSON.**

  A settings document is an object whose member `codegen` holds the five
  settings.  Members may be missing and keep their defaults; unknown members
  are skipped, however deep, as long as they are well-formed.  An object may
  also be written as the array of its values in order, from which values may
  be missing at the end.  A member that is given twice is a mistake.

  The reader is a machine on tokens: it holds the settings read so far, the
  open brackets, and what it expects next.  Tokens are read from left to right
  and the first one that does not fit decides about the fault.
-/
import GeometricAlgebra.Json.Scanner
import GeometricAlgebra.Settings

namespace GeometricAlgebra.Settings

open Json

/-! ## §1. The places of a document. -/

/-- The settings by name. -/
inductive Field where
  | dimensions
  | symbols
  | negativeAxis
  | scalarType
  | recordStem
  deriving DecidableEq, Repr

namespace Field

/-- The settings in the order in which an array lists them. -/
def all : List Field := [.dimensions, .symbols, .negativeAxis, .scalarType, .recordStem]

/-- The member name of a setting. -/
def name : Field → String
  | .dimensions => "dimensions"
  | .symbols => "symbols"
  | .negativeAxis => "negative_axis"
  | .scalarType => "scalar_type"
  | .recordStem => "record_prefix"

/-- The settings with one of them read from a token. -/
def read (field : Field) (s : Settings) (token : Token) : Except Fault Settings :=
  match field, token with
  | .dimensions, .number (.natural n) => .ok { s with dimensions := n }
  | .symbols, .text (some text) => .ok { s with symbols := text }
  | .negativeAxis, .text (some text) =>
      match text.toList with
      | [c] => .ok { s with negativeAxis := c }
      | _ => .error .mistyped
  | .scalarType, .text (some text) => .ok { s with scalarType := text }
  | .recordStem, .text (some text) => .ok { s with recordStem := text }
  | _, token => .error token.misfit

end Field

/-- What a value of a document stands for. -/
inductive Place where
  /-- The whole document. -/
  | document
  /-- The member with the settings. -/
  | settings
  /-- One of the settings. -/
  | field (field : Field)
  /-- Nothing that is known. -/
  | ignored
  deriving DecidableEq, Repr

namespace Place

/-- The name of the member with the settings. -/
def settingsName : String := "codegen"

/-- What the member of an object stands for. -/
def member (place : Place) (name : String) : Place :=
  match place with
  | .document => if name = settingsName then .settings else .ignored
  | .settings =>
      match Field.all.find? (fun field => field.name == name) with
      | some f => .field f
      | none => .ignored
  | _ => .ignored

/-- What the items of an array stand for, if it stands for an object. -/
def items : Place → List Place
  | .document => [.settings]
  | .settings => Field.all.map .field
  | _ => []

end Place

/-! ## §2. The state of the reader. -/

/-- An open bracket. -/
inductive Frame where
  /-- An object. -/
  | object (place : Place)
  /-- An array in place of an object, with what its next items stand for. -/
  | listed (upcoming : List Place)
  /-- An array that is skipped. -/
  | skipped
  deriving DecidableEq, Repr

/-- What has to come next. -/
inductive Expected where
  /-- A value. -/
  | value (place : Place)
  /-- The first item of an array, or its end. -/
  | firstItem
  /-- A further item of an array. -/
  | item
  /-- The first member of an object, or its end. -/
  | firstMember
  /-- A further member of an object. -/
  | member
  /-- The colon behind a member name. -/
  | colon (place : Place)
  /-- A comma, or the end of the innermost bracket. -/
  | separator
  /-- Nothing more. -/
  | nothing
  deriving DecidableEq, Repr

/-- The reader between two tokens. -/
structure Reader where
  /-- The settings so far. -/
  settings : Settings
  /-- The known members that have been named. -/
  named : List Place
  /-- The open brackets, innermost first. -/
  frames : List Frame
  /-- What has to come next. -/
  expected : Expected
  deriving DecidableEq, Repr

namespace Reader

/-- The reader in front of a document. -/
def start : Reader := ⟨Settings.default, [], [], .value .document⟩

/-! ## §3. Steps. -/

/-- The reader behind a value. -/
def afterValue (r : Reader) : Reader :=
  { r with expected := if r.frames = [] then .nothing else .separator }

/-- Open a bracket. -/
def push (r : Reader) (frame : Frame) (expected : Expected) : Reader :=
  { r with frames := frame :: r.frames, expected := expected }

/-- Close the innermost bracket, which completes a value. -/
def pop (r : Reader) : Reader :=
  afterValue { r with frames := r.frames.drop 1 }

/-- Read a value for its place. -/
def readValue (r : Reader) (place : Place) (token : Token) : Except Fault Reader :=
  match place with
  | .field field => do
      let settings ← field.read r.settings token
      return afterValue { r with settings := settings }
  | .ignored =>
      match token with
      | .openObject => .ok (r.push (.object .ignored) .firstMember)
      | .openArray => .ok (r.push .skipped .firstItem)
      | .text _ | .number _ | .bool _ | .null => .ok r.afterValue
      | _ => .error .malformed
  | place =>
      match token with
      | .openObject => .ok (r.push (.object place) .firstMember)
      | .openArray => .ok (r.push (.listed place.items) .firstItem)
      | token => .error token.misfit

/-- Read an item of the innermost array. -/
def readItem (r : Reader) (token : Token) : Except Fault Reader :=
  match r.frames with
  | .listed (place :: upcoming) :: frames =>
      readValue { r with frames := .listed upcoming :: frames } place token
  | .skipped :: _ => r.readValue .ignored token
  | _ => .error .malformed

/-- Read the name of a member of the innermost object. -/
def readName (r : Reader) (token : Token) : Except Fault Reader :=
  match r.frames, token with
  | .object .ignored :: _, .text _ => .ok { r with expected := .colon .ignored }
  | .object place :: _, .text (some name) =>
      let target := place.member name
      if target = .ignored then .ok { r with expected := .colon .ignored }
      else if target ∈ r.named then .error .mistyped
      else .ok { r with named := target :: r.named, expected := .colon target }
  | _, _ => .error .malformed

/-- Read what follows a value inside a bracket. -/
def readSeparator (r : Reader) (token : Token) : Except Fault Reader :=
  match r.frames, token with
  | .object _ :: _, .comma => .ok { r with expected := .member }
  | .object _ :: _, .closeObject => .ok r.pop
  | .listed _ :: _, .comma | .skipped :: _, .comma => .ok { r with expected := .item }
  | .listed _ :: _, .closeArray | .skipped :: _, .closeArray => .ok r.pop
  | _, _ => .error .malformed

/-- Read one token. -/
def step (r : Reader) (token : Token) : Except Fault Reader :=
  match r.expected with
  | .value place => r.readValue place token
  | .firstItem => if token = .closeArray then .ok r.pop else r.readItem token
  | .item => r.readItem token
  | .firstMember => if token = .closeObject then .ok r.pop else r.readName token
  | .member => r.readName token
  | .colon place =>
      if token = .colon then .ok { r with expected := .value place } else .error .malformed
  | .separator => r.readSeparator token
  | .nothing => .error .malformed

/-- Read tokens one after the other. -/
def run (r : Reader) (tokens : List Token) : Except Fault Reader :=
  tokens.foldlM step r

/-- Tokens in two parts are read one part after the other. -/
theorem run_append (r : Reader) (front back : List Token) :
    r.run (front ++ back) = (r.run front).bind (fun r' => r'.run back) :=
  List.foldlM_append

/-- The settings at the end of a document, which has to be complete. -/
def finish (r : Reader) : Except Fault Settings :=
  if r.expected = .nothing then .ok r.settings else .error .malformed

end Reader

/-! ## §4. Documents. -/

/-- The scanner and the reader behind it. -/
structure Document where
  /-- Where the characters stand. -/
  scanner : Scanner
  /-- Where the tokens stand. -/
  reader : Reader
  deriving DecidableEq, Repr

/-- The state in front of a document. -/
def Document.start : Document := ⟨.between, Reader.start⟩

/-- Read one character. -/
def Document.step (d : Document) (c : Char) : Except Fault Document := do
  let (scanner, tokens) := d.scanner.step c
  let reader ← d.reader.run tokens
  return ⟨scanner, reader⟩

/-- The settings at the end of a document. -/
def Document.finish (d : Document) : Except Fault Settings := do
  let reader ← d.reader.run d.scanner.finish
  reader.finish

/-- The settings that a document holds. -/
def ofJson (text : String) : Except Fault Settings := do
  let d ← text.toList.foldlM Document.step Document.start
  d.finish

end GeometricAlgebra.Settings
