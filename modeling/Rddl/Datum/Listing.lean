/-
  Rddl/Datum/Listing.lean
  =======================
  **Data as readable text.**

  `quoted` is the text of a datum inside another one, `displayed` its text on its
  own: a text on its own stands without quotes, and an expression is listed over
  several lines, one indented block per argument.  Inside a tuple or a list an
  expression has no text but its class.

  The walks go down the datum, so the number of its nodes bounds them.
-/
import Rddl.Datum.Dump
import Rddl.Datum.Kind

namespace Rddl.Datum

def indent (depth : Nat) : String := String.ofList (List.replicate (4 * depth) ' ')

def listingHead (depth : Nat) (kind : String) : String :=
  indent depth ++ "Expression(etype=" ++ kind ++ ", args="

mutual

/-- The text inside another datum, within a bound on the walk. -/
def quotedWithin : Nat → Datum → Except Fault String
  | 0, _ => .error .wrongShape
  | n + 1, d =>
    match d with
    | .text s => .ok (Text.shown s)
    | .integer i => .ok (integerText i)
    | .real x => .ok x.text
    | .truth b => .ok (truthText b)
    | .absent => .ok "None"
    | .tuple [x] => do .ok ("(" ++ (← quotedWithin n x) ++ ",)")
    | .tuple ds => do .ok ("(" ++ ", ".intercalate (← ds.mapM (quotedWithin n)) ++ ")")
    | .list ds => do .ok ("[" ++ ", ".intercalate (← ds.mapM (quotedWithin n)) ++ "]")
    | .expression _ => .ok "<Expression>"
    | .pvariable name _ _ params _ _ => do
      if (← params.arity) = 0 then
        match name with
        | .text s => .ok s
        | _ => .error .wrongShape
      else
        let types ← params.joined ","
        .ok ((← displayedWithin n name) ++ "(" ++ types ++ ")")
    | .cpf target body => do
      .ok ((← displayedWithin n target) ++ " =\n" ++ (← displayedWithin n body) ++ ";")

/-- The text on its own, within a bound on the walk. -/
def displayedWithin : Nat → Datum → Except Fault String
  | 0, _ => .error .wrongShape
  | n + 1, d =>
    match d with
    | .text s => .ok s
    | .expression _ => listedWithin n 0 d
    | .pvariable name _ _ params _ _ => do
      let count ← params.arity
      .ok ((← displayedWithin n name) ++ "/" ++ toString count)
    | d => quotedWithin n d

/-- The listing of an argument at a depth, within a bound on the walk. -/
def listedWithin : Nat → Nat → Datum → Except Fault String
  | 0, _, _ => .error .wrongShape
  | n + 1, depth, d =>
    match d with
    | .text s => .ok s
    | .tuple _ => do .ok (indent depth ++ (← quotedWithin n d))
    | .expression t => do
      let kind ← t.kind
      let arguments ← t.arguments
      if kind.form.isInline then
        let head := listingHead depth (← quotedWithin n kind.datum)
        .ok (head ++ (← displayedWithin n arguments) ++ ")")
      else
        let lines ← (← arguments.items).mapM (listedWithin n (depth + 1))
        let head := listingHead depth (← quotedWithin n kind.datum)
        .ok (head ++ "\n" ++ "\n".intercalate lines ++ ")")
    | d => .error (d.lacks "etype")

end

/-- A bound on the walk through a datum that is never reached. -/
def walkBound (d : Datum) : Nat := 4 * d.size + 4

def quoted (d : Datum) : Except Fault String := quotedWithin d.walkBound d

def displayed (d : Datum) : Except Fault String := displayedWithin d.walkBound d

/-! ### Names -/

/-- The name of a fluent: functor and number of arguments, divided by a slash. -/
def fluentName (functor params : Datum) : Except Fault String := do
  let count ← params.arity
  .ok ((← functor.displayed) ++ "/" ++ toString count)

def occurrenceName (p : Datum) : Except Fault String := do
  let functor ← p.item 0
  let params ← p.item 1
  fluentName functor params

def name (t : Datum) : Except Fault String := do
  if ← t.isPVariable then occurrenceName (← t.arguments) else .error .notAPVariable

end Rddl.Datum
