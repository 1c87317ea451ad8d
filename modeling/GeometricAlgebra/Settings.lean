/-
  GeometricAlgebra.Settings
  ────────────────────────────────
  **THE SETTINGS OF A KERNEL GENERATOR.**

  Settings name an alphabet, how much of it is used, and the words to be
  written into the generated module.  They are plain data; `Settings.metric`
  checks them and answers with the metric that they describe.  Of the alphabet
  only the two conformal axes and the Euclidean ones count: what follows is
  neither checked nor used.
-/
import GeometricAlgebra.Blank
import GeometricAlgebra.Metric.Label

namespace GeometricAlgebra

/-! ## §1. Settings. -/

/-- What a generator is asked for. -/
structure Settings where
  /-- The number of Euclidean axes; two conformal axes come on top. -/
  dimensions : Nat
  /-- The axis symbols in canonical order, the conformal axes first. -/
  symbols : String
  /-- The conformal axis that squares to −1. -/
  negativeAxis : Char
  /-- The type of every field of a record. -/
  scalarType : String
  /-- The stem of the record names, which end in the grade. -/
  recordStem : String
  deriving DecidableEq, Repr

namespace Settings

/-- Three-dimensional conformal space. -/
def default : Settings :=
  { dimensions := 3
    symbols := "mpxyzwvutsrq"
    negativeAxis := 'm'
    scalarType := "f64"
    recordStem := "Grade" }

instance : Inhabited Settings := ⟨default⟩

/-! ## §2. Validation. -/

/-- The number of axes: the conformal ones and the Euclidean ones. -/
def axisCount (s : Settings) : Nat := s.dimensions + 2

/-- The symbols of the axes that are used. -/
def usedSymbols (s : Settings) : List Char := s.symbols.toList.take s.axisCount

/-- The symbols of the two conformal axes. -/
def conformalSymbols (s : Settings) : List Char := s.usedSymbols.take 2

/-- The first fault of the settings, in the order in which they are checked. -/
def fault? (s : Settings) : Option SettingsFault :=
  if s.dimensions = 0 then some .noDimension
  else if s.symbols.length < s.axisCount then
    some (.tooFewSymbols s.dimensions s.symbols.length s.symbols)
  else match s.usedSymbols.find? (fun c => !c.isLower) with
    | some c => some (.symbolNotLowercase c)
    | none =>
        if s.negativeAxis ∉ s.conformalSymbols then
          some (.negativeAxisNotConformal s.negativeAxis (String.ofList s.conformalSymbols))
        else if isBlank s.scalarType || isBlank s.recordStem then some .blankName
        else none

/-- The metric that the settings describe, or what is wrong with them. -/
def metric (s : Settings) : Outcome Metric :=
  match s.fault? with
  | some fault => .error (.invalidSettings fault)
  | none => Metric.conformal s.usedSymbols s.negativeAxis

end Settings

end GeometricAlgebra
