/-
  Rddl/Session.lean
  =================
  **Working on one model after another.**

  A session reads texts one after another, counting lines on from one to the next,
  and holds the model that came last with the tables built for it.
-/
import Rddl.Model.Dependencies
import Rddl.Reading
import Rddl.Scanner

namespace Rddl

structure Session where
  line : Nat := 1
  current? : Option (Model × Tables) := none
deriving Repr, Inhabited

namespace Session

/-- A new session.  It prepares a scanner of its own; when it is handed one instead, it
    is left without any. -/
def start : Option Scanner → Except Fault Session
  | none => .ok {}
  | some _ => .error (.missingField "RDDLParser" "lexer")

/-- A session with another current model, for which nothing is built yet. -/
def hold (s : Session) (m? : Option Model) : Session :=
  { s with current? := m?.map fun m => (m, {}) }

/-- Read a text; the model read becomes the current one. -/
def read (s : Session) (text : String) : Reading × Session :=
  let reading := Reading.ofText s.line text
  let m? := match reading.verdict with
    | .model m => some m
    | _ => none
  (reading, { s with line := reading.line }.hold m?)

/-- Ask the current model something; without one the field that is asked for is missing. -/
def ask {α : Type} (s : Session) (field : String) (question : Model → Tables → Except Fault α) :
    Except Fault α :=
  match s.current? with
  | some (m, t) => question m t
  | none => .error (Datum.absent.lacks field)

def build (s : Session) (field : String) (step : Model → Build Unit) :
    Except Fault Unit × Session :=
  match s.current? with
  | none => (.error (Datum.absent.lacks field), s)
  | some (m, t) =>
    match step m t with
    | .ok _ t => (.ok (), { s with current? := some (m, t) })
    | .error cause t => (.error cause, { s with current? := some (m, t) })

end Session

end Rddl
