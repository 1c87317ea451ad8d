/-
  GeometricAlgebra.Kernel.Generator
  ────────────────────────────────
  **THE GENERATED RUST MODULE.**

  A generator is a set of settings together with the metric that they
  describe.  Its module declares one record for each grade, with a field for
  each basis blade, and one function for each kernel, with one line for each
  step.  The text is built as a list of lines and every line is ended by a
  newline.

  A field is named by the label of its blade.  The labels that the language
  reserves are escaped, so distinct blades keep distinct names.
-/
import GeometricAlgebra.Kernel

namespace GeometricAlgebra

/-! ## §1. Field names. -/

/-- Words that are allowed as identifiers only behind `r#`. -/
def reservedWords : List String :=
  ["abstract", "as", "async", "await", "become", "box", "break", "const", "continue", "do",
   "dyn", "else", "enum", "extern", "false", "final", "fn", "for", "gen", "if", "impl", "in",
   "let", "loop", "macro", "match", "mod", "move", "mut", "override", "priv", "pub", "ref",
   "return", "static", "struct", "trait", "true", "try", "type", "typeof", "unsafe", "unsized",
   "use", "virtual", "where", "while", "yield"]

/-- Words that are not identifiers even behind `r#`. -/
def pathWords : List String := ["crate", "self", "super"]

/-- An identifier for a label. -/
def identifier (label : String) : String :=
  if label ∈ pathWords then label ++ "_"
  else if label ∈ reservedWords then "r#" ++ label
  else label

/-- The name of the field of a blade. -/
def Metric.fieldName (metric : Metric) (blade : Blade) : String :=
  if blade = [] then "scalar" else identifier (metric.label blade)

/-! ## §2. Generators. -/

/-- Settings that passed their checks, with their metric. -/
structure Generator where
  /-- What was asked for. -/
  settings : Settings
  /-- The metric that the settings describe. -/
  metric : Metric
  deriving DecidableEq, Repr

namespace Generator

/-- The generator for the given settings. -/
def ofSettings (settings : Settings) : Outcome Generator :=
  return ⟨settings, ← settings.metric⟩

/-- The greatest grade, which is that of the pseudoscalar. -/
def maxGrade (g : Generator) : Nat := g.metric.size

/-- All grades from the scalars to the pseudoscalar. -/
def grades (g : Generator) : List Nat := List.range (g.maxGrade + 1)

/-! ## §3. Lines. -/

/-- The name of the record of a grade. -/
def recordName (g : Generator) (grade : Nat) : String :=
  g.settings.recordStem ++ Nat.repr grade

/-- The comment at the top of the module. -/
def headLines (g : Generator) : List String :=
  [ "//! Blade multiplication kernels for " ++ Nat.repr g.settings.dimensions ++ " dimensions.",
    "//!",
    "//! Basis `" ++ g.metric.alphabet ++ "`: `" ++ String.singleton g.settings.negativeAxis
      ++ "` squares to -1, every other axis to +1.",
    "//! Generated by cga-codegen; do not edit." ]

/-- The declaration of one field. -/
def fieldLine (g : Generator) (blade : Blade) : String :=
  "    pub " ++ g.metric.fieldName blade ++ ": " ++ g.settings.scalarType ++ ","

/-- The declaration of the record of a grade. -/
def recordLines (g : Generator) (grade : Nat) : List String :=
  [ "/// Grade-" ++ Nat.repr grade ++ " blade coefficients.",
    "#[derive(Debug, Default, Copy, Clone, PartialEq)]",
    "pub struct " ++ g.recordName grade ++ " \x7b" ]
  ++ (g.metric.basis grade).map g.fieldLine
  ++ ["\x7d"]

/-- The name of a product in a comment. -/
def describe : GradedProduct → String
  | .wedge => "Outer product"
  | .leftContraction => "Left contraction"

/-- The operator that applies a step with this sign. -/
def accumulation : Sign → String
  | .positive => "+="
  | .negative => "-="

/-- One step of a kernel. -/
def termLine (g : Generator) (term : KernelTerm) : String :=
  "    out." ++ g.metric.fieldName term.out ++ " " ++ accumulation term.sign
    ++ " lhs." ++ g.metric.fieldName term.lhs ++ " * rhs." ++ g.metric.fieldName term.rhs ++ ";"

/-- The function of a kernel. -/
def kernelLines (g : Generator) (kernel : Kernel) : List String :=
  let s := kernel.signature
  let result := g.recordName kernel.outGrade
  [ "/// " ++ describe s.product ++ " of grade-" ++ Nat.repr s.lhs ++ " and grade-"
      ++ Nat.repr s.rhs ++ " blades.",
    "pub fn " ++ s.name ++ "(lhs: &" ++ g.recordName s.lhs ++ ", rhs: &" ++ g.recordName s.rhs
      ++ ") -> " ++ result ++ " \x7b",
    "    let mut out = " ++ result ++ "::default();" ]
  ++ kernel.terms.map g.termLine
  ++ ["    out", "\x7d"]

/-- The whole module: the records of all grades and then the kernels, with an
empty line in front of each. -/
def moduleLines (g : Generator) (kernels : List Kernel) : List String :=
  g.headLines
  ++ g.grades.flatMap (fun grade => "" :: g.recordLines grade)
  ++ kernels.flatMap (fun kernel => "" :: g.kernelLines kernel)

/-! ## §4. The module. -/

/-- Lines as a text in which each is ended by a newline. -/
def textOfLines (lines : List String) : String :=
  String.join (lines.map (· ++ "\n"))

/-- The module with the given kernels. -/
def moduleText (g : Generator) (kernels : List Kernel) : String :=
  textOfLines (g.moduleLines kernels)

/-- The module with every kernel of the metric. -/
def emit (g : Generator) : Outcome String :=
  return g.moduleText (← g.metric.kernels)

end Generator

end GeometricAlgebra
