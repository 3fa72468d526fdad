/-
  Rddl/Reader.lean
  ================
  **Reading tokens one after another.**

  A reader looks at the token ahead and takes it when it fits.  Taking a token
  brings the next one ahead, and the illegal characters skipped on the way are
  logged at that moment.  A reader that meets a token it cannot use stops there; it
  never takes back what it has taken.
-/
import Rddl.Message
import Rddl.Scan

namespace Rddl

inductive Stop where
  /-- The token ahead, or the end of the text, does not fit. -/
  | unexpected
  | fault (cause : Fault)
deriving DecidableEq, Repr

/-- The place of a reader in the text. -/
structure Cursor where
  /-- What lies ahead; its first piece is no illegal character. -/
  ahead : Scan
  /-- The events so far, the latest first. -/
  log : List Message
  /-- How many more tokens must be taken before an error is reported again. -/
  patience : Nat
deriving Repr, Inhabited

abbrev Reader := EStateM Stop Cursor

namespace Scan

/-- A scan without the illegal characters at its front. -/
def settled : Scan → Scan
  | .illegal _ _ rest => rest.settled
  | s => s

/-- The events for the illegal characters at the front of a scan. -/
def skipped : Scan → List Message
  | .illegal c line rest => .illegal c line :: rest.skipped
  | _ => []

def line : Scan → Nat
  | .token t _ => t.line
  | .illegal _ line _ => line
  | .overlong _ line => line
  | .finished line => line

end Scan

namespace Reader

variable {α : Type}

def unexpected : Reader α := throw .unexpected

def enter (scan : Scan) (log : List Message) (patience : Nat) : Reader Unit := do
  set (Cursor.mk scan.settled (scan.skipped.reverse ++ log) patience)
  match scan.settled with
  | .overlong digits _ => throw (.fault (.overlongInteger digits))
  | _ => pure ()

/-- The lexeme ahead, none at the end of the text. -/
def peek : Reader (Option Lexeme) := do
  match (← get).ahead with
  | .token t _ => pure (some t.lexeme)
  | _ => pure none

def advance : Reader Unit := do
  let c ← get
  match c.ahead with
  | .token _ rest => enter rest c.log (c.patience - 1)
  | _ => unexpected

/-- Take the token ahead if it has a use, and return the use. -/
def take (use : Lexeme → Option α) : Reader α := do
  match (← peek).bind use with
  | some a => do advance; pure a
  | none => unexpected

def accept (lexeme : Lexeme) : Reader Bool := do
  if (← peek) == some lexeme then
    advance
    pure true
  else pure false

def expect (lexeme : Lexeme) : Reader Unit := take fun l => if l = lexeme then some () else none

def symbol (mark : Symbol) : Reader Unit := expect (.symbol mark)

def keyword (word : Keyword) : Reader Unit := expect (.keyword word)

def acceptSymbol (mark : Symbol) : Reader Bool := accept (.symbol mark)

def ident : Reader String := take fun
  | .ident name => some name
  | _ => none

def variableName : Reader String := take fun
  | .variable name => some name
  | _ => none

def enumValue : Reader String := take fun
  | .enumValue name => some name
  | _ => none

/-- Take an identifier or an enumeration value. -/
def label : Reader String := take fun
  | .ident name => some name
  | .enumValue name => some name
  | _ => none

def note (m : Message) : Reader Unit := modify fun c => { c with log := m :: c.log }

/-- A bound on the number of steps that reading what lies ahead can take. -/
def bound : Reader Nat := do pure (2 * (← get).ahead.size + 2)

/-! ### Lists -/

/-- Further items, each after a comma. -/
def commaTail (item : Reader α) : Nat → Reader (List α)
  | 0 => unexpected
  | n + 1 => do
    if ← acceptSymbol .comma then
      let first ← item
      let rest ← commaTail item n
      pure (first :: rest)
    else pure []

def commaList (item : Reader α) (n : Nat) : Reader (List α) := do
  let first ← item
  let rest ← commaTail item n
  pure (first :: rest)

/-- Items divided by commas, up to a closing symbol.  There may be none, and the first
    may be left out before a comma. -/
def looseList (item : Reader α) (close : Symbol) (n : Nat) : Reader (List α) := do
  let next ← peek
  let items ←
    if next == some (.symbol close) || next == some (.symbol .comma) then commaTail item n
    else commaList item n
  symbol close
  pure items

def itemsToClose (item : Reader α) : Nat → Reader (List α)
  | 0 => unexpected
  | n + 1 => do
    if ← acceptSymbol .rightCurly then pure []
    else
      let first ← item
      let rest ← itemsToClose item n
      pure (first :: rest)

end Reader

end Rddl
