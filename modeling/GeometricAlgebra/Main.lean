/-
  GeometricAlgebra.Main
  ────────────────────────────────
  **THE COMMAND LINE.**

  Its one argument, which may be missing, is the path of a settings file.  The
  generated module goes to the standard output, the log and the error go to
  the standard error, and the variable `RUST_LOG` names the lowest level that
  is logged.  Everything that is decided here is decided by `Command.run`.
-/
import GeometricAlgebra.Command

namespace GeometricAlgebra.Command

/-- The bytes of a file, if it can be read. -/
def readFile? (path : String) : IO (Option ByteArray) := do
  try
    let content ← IO.FS.readBinFile path
    return some content
  catch _ => return none

/-- The input that the arguments name. -/
def readInput (arguments : List String) : IO Input := do
  match arguments with
  | [] => return .default
  | path :: _ => return .file path (← readFile? path)

/-- The wanted level of the log. -/
def readLevel : IO Level := do
  return Level.ofFilter (← IO.getEnv "RUST_LOG")

/-- Show a report. -/
def Report.show (report : Report) : IO Unit := do
  for line in report.log do
    IO.eprintln s!"[{line.level.label} {line.target}] {line.message}"
  IO.print report.output
  match report.error with
  | none => return
  | some error =>
    IO.eprintln s!"Error: {error.message}"
    match error.cause with
    | none => return
    | some cause => IO.eprintln s!"\nCaused by:\n    {cause}"

end GeometricAlgebra.Command

open GeometricAlgebra.Command in
/-- Run the command on its arguments. -/
def main (arguments : List String) : IO UInt32 := do
  let input ← readInput arguments
  let level ← readLevel
  let report := (run input).atLevel level
  report.show
  return report.exitCode.toUInt32
