/-
  Rddl/Scanner.lean
  =================
  **Scanning texts one after another.**

  A scanner counts lines on from one text to the next.  It has to be prepared
  before its first text; until then it has no line count.
-/
import Rddl.Scan

namespace Rddl

/-- A scanner with the number of the line where its next text starts. -/
structure Scanner where
  line? : Option Nat
deriving DecidableEq, Repr, Inhabited

namespace Scanner

def unprepared : Scanner := ⟨none⟩

def prepared : Scanner := ⟨some 1⟩

def line (s : Scanner) : Except Fault Nat :=
  match s.line? with
  | some line => .ok line
  | none => .error (.missingField "RDDLlex" "_lexer")

/-- Scan a text, counting lines on. -/
def scan (s : Scanner) (text : String) : Except Fault Scan × Scanner :=
  match s.line with
  | .ok line =>
    let scan := Scan.ofText line text
    (.ok scan, ⟨some scan.lastLine⟩)
  | .error cause => (.error cause, s)

end Scanner

end Rddl
