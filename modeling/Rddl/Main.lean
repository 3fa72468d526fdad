/-
  Rddl/Main.lean
  ==============
  **The command line.**
-/
import Rddl.CommandLine

/-- Report on the file named on the command line, at length after `-v` or `--verbose`. -/
def main (args : List String) : IO UInt32 := do
  let verbose := args.contains "-v" || args.contains "--verbose"
  match args.filter fun a => a != "-v" && a != "--verbose" with
  | [path] => do
    let text ← IO.FS.readFile path
    let (printed, fault?) := Rddl.CommandLine.output verbose text
    IO.print printed
    match fault? with
    | none => pure 0
    | some cause => do
      IO.eprintln (cause.message.getD "malformed model")
      pure 1
  | _ => do
    IO.eprintln "usage: rddl [-v] FILE"
    pure 2
