/-
  Rddl/Reading.lean
  =================
  **Reading a text, with recovery from errors.**

  When a token does not fit, everything read so far is given up, the token is
  dropped, and reading starts anew behind it.  An error is reported only if at
  least three tokens were taken since the last one.  At the end of the text there
  is nothing to start anew with: the reading then yields nothing, or fails when the
  error would have to be reported.
-/
import Rddl.Reader.Document

namespace Rddl

inductive Verdict where
  | model (m : Model)
  | nothing
  | fault (cause : Fault)
deriving Repr, Inhabited

/-- The result of reading a text: what came of it, the events in order, and the line at
    which the reading ended. -/
structure Reading where
  verdict : Verdict
  log : List Message
  line : Nat
deriving Repr, Inhabited

namespace Reading

def endingAt (c : Cursor) (verdict : Verdict) : Reading := ⟨verdict, c.log.reverse, c.ahead.line⟩

/-- The tokens to take after an error before the next one is reported. -/
def patience : Nat := 3

/-- The log after an error, which is reported unless there was one shortly before. -/
def report (c : Cursor) (m : Message) : List Message :=
  if c.patience = 0 then m :: c.log else c.log

def cutOff (c : Cursor) : Reading :=
  endingAt { c with log := report c .cutOff }
    (if c.patience = 0 then .fault (Datum.absent.lacks "lineno") else .nothing)

/-- Read a document from a place on, starting anew behind every token that does not fit. -/
def run : Nat → Cursor → Reading
  | 0, c => cutOff c
  | n + 1, c =>
    match Reader.model c with
    | .ok m c => endingAt c (.model m)
    | .error (.fault cause) c => endingAt c (.fault cause)
    | .error .unexpected c =>
      match c.ahead with
      | .token t rest =>
        match Reader.enter rest (report c (.rejected t)) patience c with
        | .ok _ c => run n c
        | .error (.fault cause) c => endingAt c (.fault cause)
        | .error .unexpected c => cutOff c
      | _ => cutOff c

def ofScan (scan : Scan) : Reading :=
  match Reader.enter scan [] 0 ⟨scan, [], 0⟩ with
  | .ok _ c => run (scan.size + 1) c
  | .error (.fault cause) c => endingAt c (.fault cause)
  | .error .unexpected c => cutOff c

/-- Read a text whose first line has the given number. -/
def ofText (line : Nat) (text : String) : Reading := ofScan (Scan.ofText line text)

end Reading

end Rddl
