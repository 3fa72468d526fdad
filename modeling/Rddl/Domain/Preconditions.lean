/-
  Rddl/Domain/Preconditions.lean
  ==============================
  **Action preconditions and the bounds they put on actions.**

  A precondition whose scope holds exactly one action fluent is local to that
  action, every other one is global.  A local precondition that compares its
  action with an expression, directly or under a universal quantifier, bounds the
  action.
-/
import Rddl.Domain.Fluents
import Rddl.Datum.Fields
import Rddl.Model.Tables

namespace Rddl

/-! ### Local and global preconditions -/

namespace Tables

def addLocal (t : Tables) (action : String) (condition : Datum) : Tables :=
  let table := t.localPreconditions?.getD .empty
  let known := (table.find? action).getD []
  { t with localPreconditions? := some (table.insert action (known ++ [condition])) }

def addGlobal (t : Tables) (condition : Datum) : Tables :=
  { t with globalPreconditions? := some (t.globalPreconditions?.getD [] ++ [condition]) }

def setLower (t : Tables) (action : String) (bound : Datum) : Tables :=
  { t with lowerBounds? := some ((t.lowerBounds?.getD .empty).insert action bound) }

def setUpper (t : Tables) (action : String) (bound : Datum) : Tables :=
  { t with upperBounds? := some ((t.upperBounds?.getD .empty).insert action bound) }

end Tables

namespace Domain

def placePrecondition (actions : Table String PVariable) (condition : Datum) : Build Unit := do
  let scope ← Build.lift condition.scopeOf
  match scope.filter actions.contains with
  | [action] => modify fun t => t.addLocal action condition
  | _ => modify fun t => t.addGlobal condition

def buildPreconditions (d : Domain) : Build Unit := do
  modify fun t =>
    { t with localPreconditions? := some .empty, globalPreconditions? := some [] }
  let actions ← Build.lift (d.fluents .action)
  let conditions ← Build.lift d.preconditions.items
  conditions.forM (placePrecondition actions)

/-! ### Bounds -/

/-- The comparison that a precondition consists of: the precondition itself, or what
    stands under its universal quantifier. -/
def comparison? (condition : Datum) : Except Fault (Option Datum) := do
  let t ← condition.tree "etype"
  let kind ← t.kind
  let arguments ← t.arguments
  match kind.form with
  | .aggregation "forall" => do
    let inner ← (← arguments.item 1).tree "etype"
    .ok (if (← inner.kind).form == .relational then some inner else none)
  | .relational => .ok (some t)
  | _ => .ok none

def isFluent (name : String) (side : Datum) : Except Fault Bool := do
  let t ← side.tree "is_pvariable_expression"
  if ← t.isPVariable then .ok ((← t.name) == name) else .ok false

/-- The other side of a comparison, when the side at `place` is the fluent with the given
    name.  A side that is absent bounds nothing. -/
def otherSide? (name : String) (arguments : Datum) (place : Nat) : Except Fault (Option Datum) := do
  if ← isFluent name (← arguments.item place) then
    let other ← arguments.item (1 - place)
    .ok (if other.isAbsent then none else some other)
  else .ok none

def lowerBound? (name : String) (comparison : Datum) : Except Fault (Option Datum) := do
  let operator := (← comparison.kind).detail
  let arguments ← comparison.arguments
  if operator.isText "<=" || operator.isText "<" then otherSide? name arguments 1
  else if operator.isText ">=" || operator.isText ">" then otherSide? name arguments 0
  else .ok none

def upperBound? (name : String) (comparison : Datum) : Except Fault (Option Datum) := do
  let operator := (← comparison.kind).detail
  let arguments ← comparison.arguments
  if operator.isText "<=" || operator.isText "<" then otherSide? name arguments 0
  else if operator.isText ">=" || operator.isText ">" then otherSide? name arguments 1
  else .ok none

/-- Note the bound that a precondition puts on an action; a lower one is looked for first. -/
def placeBound (name : String) (condition : Datum) : Build Unit := do
  match ← Build.lift (comparison? condition) with
  | none => pure ()
  | some comparison =>
    match ← Build.lift (lowerBound? name comparison) with
    | some bound => modify fun t => t.setLower name bound
    | none =>
      match ← Build.lift (upperBound? name comparison) with
      | some bound => modify fun t => t.setUpper name bound
      | none => pure ()

def buildBounds : Build Unit := do
  modify fun t => { t with lowerBounds? := some .empty, upperBounds? := some .empty }
  let table ← Build.lift (← get).localPreconditions
  table.entries.forM fun entry => entry.2.forM (placeBound entry.1)

def build (d : Domain) : Build Unit := do
  d.buildPreconditions
  buildBounds

end Domain

end Rddl
