/-
  GeometricAlgebra.Command
  ────────────────────────────────
  **WHAT THE COMMAND LINE DOES.**

  The command reads settings from a file, or takes the defaults without one,
  and prints the generated module.  It is a function from what it finds
  (`Input`) to what it shows (`Report`): the module or nothing, the lines of
  the log, and the error.  The log is written in full and then cut down to the
  wanted level, so the level changes nothing else.
-/
import GeometricAlgebra.Kernel.Generator
import GeometricAlgebra.Settings.Writer

namespace GeometricAlgebra.Command

/-! ## §1. Inputs and reports. -/

/-- How important a line of the log is, and which lines are wanted.  No line has
the level `off`: where it is the wanted one, nothing is logged. -/
inductive Level where
  | off
  | error
  | warn
  | info
  | debug
  | trace
  deriving DecidableEq, Repr

namespace Level

/-- More talkative levels have higher ranks. -/
def rank : Level → Nat
  | .off => 0
  | .error => 1
  | .warn => 2
  | .info => 3
  | .debug => 4
  | .trace => 5

/-- The name of a level in the log. -/
def label : Level → String
  | .off => "OFF"
  | .error => "ERROR"
  | .warn => "WARN"
  | .info => "INFO"
  | .debug => "DEBUG"
  | .trace => "TRACE"

/-- The level with a name, in small or capital letters and with any spaces around. -/
def ofName? (name : String) : Option Level :=
  match name.trimAscii.toString.toLower with
  | "off" => some .off
  | "error" => some .error
  | "warn" => some .warn
  | "info" => some .info
  | "debug" => some .debug
  | "trace" => some .trace
  | _ => none

/-- The level that a filter asks for: `info` without a filter, `error` if it is
blank.  Any other text names parts of the program, each with a level of its own, or
a pattern for the messages; such a filter is not read and counts as none. -/
def ofFilter : Option String → Level
  | none => .info
  | some filter => if isBlank filter then .error else (ofName? filter).getD .info

end Level

/-- A line of the log: its level, the part of the program, and the message. -/
structure LogLine where
  /-- The importance. -/
  level : Level
  /-- The part of the program that speaks. -/
  target : String
  /-- What it says. -/
  message : String
  deriving DecidableEq, Repr

/-- What the command is started with. -/
inductive Input where
  /-- No argument. -/
  | default
  /-- The path of a file, with its bytes if it can be read. -/
  | file (path : String) (content : Option ByteArray)

/-- Why the command fails. -/
inductive Error where
  /-- The file cannot be read as text. -/
  | unreadable (path : String)
  /-- The text does not hold settings. -/
  | unparsable (path : String) (fault : Json.Fault)
  /-- The settings describe no generator. -/
  | invalid (failure : Failure)
  /-- The module cannot be generated. -/
  | emission (failure : Failure)
  deriving DecidableEq, Repr

namespace Error

/-- The wording of an error. -/
def message : Error → String
  | .unreadable path => s!"Failed to read config file '{path}'"
  | .unparsable path _ => s!"Failed to parse config file '{path}'"
  | .invalid _ => "Invalid generator configuration"
  | .emission _ => "Failed to emit module"

/-- The wording of what lies behind an error, where that is a failure of the
library. -/
def cause : Error → Option String
  | .unreadable _ | .unparsable _ _ => none
  | .invalid failure | .emission failure => some failure.message

end Error

/-- What the command shows. -/
structure Report where
  /-- The standard output. -/
  output : String
  /-- The log. -/
  log : List LogLine
  /-- The error that ended the run, if one did. -/
  error : Option Error
  deriving DecidableEq, Repr

/-- The exit code: 1 after an error. -/
def Report.exitCode (report : Report) : Nat :=
  if report.error.isSome then 1 else 0

/-- The report with the log cut down to a level. -/
def Report.atLevel (report : Report) (level : Level) : Report :=
  { report with log := report.log.filter (fun line => line.level.rank ≤ level.rank) }

/-! ## §2. The log. -/

/-- A line of the command itself. -/
def note (message : String) : LogLine := ⟨.info, "cga_codegen", message⟩

/-- A line of the generator. -/
def detail (level : Level) (message : String) : LogLine :=
  ⟨level, "cga_sym::codegen", message⟩

/-- The line for a new generator. -/
def generatorLine (g : Generator) : LogLine :=
  detail .debug s!"Generator for {g.settings.dimensions} dimensions over \"{g.metric.alphabet}\" ({g.settings.negativeAxis} negative), max grade {g.maxGrade}"

/-- The line for one step of a kernel. -/
def termLine (g : Generator) (signature : Signature) (term : KernelTerm) : LogLine :=
  let label := g.metric.label
  detail .trace s!"{signature.product.name}: {label term.lhs} {label term.rhs} -> {term.sign.text}{label term.out}"

/-- The wording of a target grade that has no blades. -/
def gradeText : Option Nat → String
  | some grade => s!"Some({grade})"
  | none => "None"

/-- The lines for a signature that was tried. -/
def attemptLines (g : Generator) (attempt : Signature × Option Kernel) : List LogLine :=
  let signature := attempt.1
  match attempt.2 with
  | some kernel =>
      kernel.terms.map (termLine g signature)
        ++ [detail .debug s!"{signature.name}: {kernel.terms.length} terms into grade {kernel.outGrade}"]
  | none =>
      match signature.product.targetGrade signature.lhs signature.rhs with
      | .ok target =>
          [detail .debug s!"Skipping {signature.name}: target grade {gradeText target} has no blades to fill"]
      | .error _ => []

/-! ## §3. The run. -/

/-- The settings of an input, with the line that announces them. -/
def load : Input → Except Error (Settings × LogLine)
  | .default => .ok (Settings.default, note "Configuration loaded (using default).")
  | .file path content =>
      match content.bind String.fromUTF8? with
      | none => .error (.unreadable path)
      | some text =>
          match Settings.ofJson text with
          | .error fault => .error (.unparsable path fault)
          | .ok settings => .ok (settings, note s!"Configuration loaded from '{path}'.")

/-- The report on loaded settings, behind the lines that were logged so far. -/
def generate (settings : Settings) (log : List LogLine) : Report :=
  match Generator.ofSettings settings with
  | .error failure => ⟨"", log, some (.invalid failure)⟩
  | .ok g =>
      let blades := Nat.pow 2 g.metric.size
      let log := log ++
        [ generatorLine g,
          note s!"Generating kernels for grades 1..={g.maxGrade} over {blades} basis blades." ]
      match g.metric.attempts with
      | .error failure => ⟨"", log, some (.emission failure)⟩
      | .ok attempts =>
          let text := g.moduleText (attempts.filterMap Prod.snd)
          let bytes := text.utf8ByteSize
          ⟨text,
            log ++ attempts.flatMap (attemptLines g)
              ++ [note s!"Wrote {bytes} bytes of generated source."],
            none⟩

/-- The full report on an input. -/
def run (input : Input) : Report :=
  match load input with
  | .error error => ⟨"", [], some error⟩
  | .ok (settings, line) => generate settings [line]

end GeometricAlgebra.Command
