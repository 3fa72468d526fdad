/-
  Rddl/Model/Tables.lean
  ======================
  **What building a model produces.**

  Building fills six tables.  They are kept apart from the model, which no build
  step changes, and a step that fails keeps what it has made up to then.
-/
import Rddl.Model
import Rddl.Datum.Order

namespace Rddl

structure ObjectEntry where
  size : Nat
  index : Table Key Nat
  objects : Datum
deriving Repr, Inhabited

/-- A fluent with the sizes of its parameter types. -/
structure FluentEntry where
  fluent : PVariable
  shape : List Nat
deriving Repr, Inhabited

/-- The tables made by building; one that no step has set is absent. -/
structure Tables where
  localPreconditions? : Option (Table String (List Datum)) := none
  globalPreconditions? : Option (List Datum) := none
  lowerBounds? : Option (Table String Datum) := none
  upperBounds? : Option (Table String Datum) := none
  objects? : Option (Table Key ObjectEntry) := none
  fluents? : Option (Table String FluentEntry) := none
deriving Repr, Inhabited

/-- A build step: it may fail, and keeps its changes to the tables when it does. -/
abbrev Build := EStateM Fault Tables

namespace Build

/-- An operation that does not touch the tables, as a build step. -/
def lift {α : Type} (x : Except Fault α) : Build α :=
  match x with
  | .ok a => pure a
  | .error f => throw f

end Build

namespace Tables

def required {α : Type} (owner field : String) : Option α → Except Fault α
  | some a => .ok a
  | none => .error (.missingField owner field)

def localPreconditions (t : Tables) : Except Fault (Table String (List Datum)) :=
  required "Domain" "local_action_preconditions" t.localPreconditions?

def globalPreconditions (t : Tables) : Except Fault (List Datum) :=
  required "Domain" "global_action_preconditions" t.globalPreconditions?

def lowerBounds (t : Tables) : Except Fault (Table String Datum) :=
  required "Domain" "action_lower_bound_constraints" t.lowerBounds?

def upperBounds (t : Tables) : Except Fault (Table String Datum) :=
  required "Domain" "action_upper_bound_constraints" t.upperBounds?

def objects (t : Tables) : Except Fault (Table Key ObjectEntry) :=
  required "RDDL" "object_table" t.objects?

def fluents (t : Tables) : Except Fault (Table String FluentEntry) :=
  required "RDDL" "fluent_table" t.fluents?

def objectsOf (t : Tables) (type : Datum) : Except Fault ObjectEntry := do
  let objects ← t.objects
  let key ← type.key
  match objects.find? key with
  | some entry => .ok entry
  | none => .error (.missingKey (← type.displayed))

end Tables

end Rddl
