/-
  Rddl/Message.lean
  =================
  **What reading a document prints.**

  The reader keeps a log of everything it could print.  Which of it is printed, and
  how, depends on the options alone, so options never change what is read.
-/
import Rddl.Lexeme

namespace Rddl

/-- An event in reading a document. -/
inductive Message where
  /-- A character that starts no lexeme was skipped. -/
  | illegal (c : Char) (line : Nat)
  /-- A section was read. -/
  | parsed (title : String)
  /-- A token does not fit where it stands. -/
  | rejected (t : Token)
  /-- The text ended in the middle of a document. -/
  | cutOff
deriving DecidableEq, Repr

/-- What to print: whether to announce sections, and the log file to point to on errors. -/
structure PrintOptions where
  verbose : Bool := false
  logFile? : Option String := none
deriving Repr, Inhabited

namespace Message

def logPointer (options : PrintOptions) : List String :=
  match options.logFile? with
  | some file => ["Syntax error in input! See log file: " ++ file]
  | none => []

def lines (options : PrintOptions) : Message → List String
  | .illegal c line =>
    ["Illegal character: " ++ String.ofList [c] ++ " at line " ++ toString line]
  | .parsed title => if options.verbose then [">> Parsed `" ++ title ++ "` ..."] else []
  | .rejected t =>
    logPointer options ++
      ["Syntax error in input! Line: " ++ toString t.line ++ " failed token:", t.describe]
  | .cutOff => logPointer options

/-- The text printed for a sequence of events, every line ended by a newline. -/
def render (options : PrintOptions) (log : List Message) : String :=
  String.join ((log.flatMap (lines options)).map (· ++ "\n"))

end Message

end Rddl
