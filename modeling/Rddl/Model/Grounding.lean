/-
  Rddl/Model/Grounding.lean
  =========================
  **Objects, shapes and grounded fluents.**

  The objects of a type come from the non-fluents block.  The shape of a fluent is
  the number of objects of each of its parameter types, and its groundings are all
  combinations of objects, the last parameter changing fastest.
-/
import Rddl.Domain.Preconditions

namespace Rddl

namespace Datum

def entry (position : Nat) (d : Datum) : Except Fault (Key × Datum) := do
  match ← d.items with
  | [key, value] => do .ok (← key.key, value)
  | ds => .error (.notAnEntry position ds.length)

/-- The table that a list of pairs stands for. -/
def entries (d : Datum) : Except Fault (Table Key Datum) := do
  let pairs ← (← d.items).zipIdx.mapM fun (e, position) => e.entry position
  .ok (Table.ofList pairs)

def positions (d : Datum) : Except Fault (Table Key Nat) := do
  let keys ← (← d.items).mapM Datum.key
  .ok (Table.ofList keys.zipIdx)

end Datum

namespace Model

/-! ### Objects -/

def listedObjects (m : Model) : Except Fault (Table Key Datum) := do
  match m.nonFluents.find? "objects" with
  | some objects => objects.entries
  | none => .error (.missingField "NonFluents" "objects")

def objectEntry (listed : Table Key Datum) (type : Key) : Except Fault ObjectEntry := do
  match listed.find? type with
  | none => .error (.missingKey (← type.datum.displayed))
  | some objects => do
    let index ← objects.positions
    .ok { size := ← objects.length, index, objects }

/-- Add the objects of a declared type, if it is a type of objects. -/
def placeObjects (listed : Table Key Datum) (decl : Datum) : Build Unit := do
  let (type, body) ← Build.lift decl.pair
  if body.isText "object" then
    let key ← Build.lift type.key
    let entry ← Build.lift (objectEntry listed key)
    modify fun t => { t with objects? := some ((t.objects?.getD .empty).insert key entry) }

def buildObjects (m : Model) : Build Unit := do
  let listed ← Build.lift m.listedObjects
  modify fun t => { t with objects? := some .empty }
  let types ← Build.lift m.domain.types.items
  types.forM (placeObjects listed)

/-! ### Shapes -/

/-- The fluents of a kind with their names, in canonical order. -/
def orderedFluents (m : Model) (kind : FluentKind) : Except Fault (List (String × PVariable)) := do
  let fluents ← m.domain.fluents kind
  let ordering ← m.domain.ordering kind
  ordering.mapM fun name =>
    match fluents.find? name with
    | some fluent => .ok (name, fluent)
    | none => .error (.missingKey name)

def paramTypes (fluent : PVariable) : Except Fault (List Datum) :=
  if fluent.params.isAbsent then .ok [] else fluent.params.items

def shape (t : Tables) (fluent : PVariable) : Except Fault (List Nat) := do
  (← paramTypes fluent).mapM fun type => do .ok (← t.objectsOf type).size

def sizes (m : Model) (t : Tables) (kind : FluentKind) : Except Fault (List (List Nat)) := do
  (← m.orderedFluents kind).mapM fun fluent => shape t fluent.2

def ranges (m : Model) (kind : FluentKind) : Except Fault (List Datum) := do
  .ok ((← m.orderedFluents kind).map fun fluent => fluent.2.range)

/-! ### Grounded fluents -/

/-- All ways to take one item from each of several lists, the last list changing fastest. -/
def combinations {α : Type} : List (List α) → List (List α)
  | [] => [[]]
  | xs :: rest => xs.flatMap fun x => (combinations rest).map (x :: ·)

/-- The groundings of a fluent: its plain name when it has no parameter list. -/
def groundings (t : Tables) (fluent : PVariable) : Except Fault (List Datum) := do
  if fluent.params.isAbsent then .ok [fluent.name]
  else
    let objects ← (← fluent.params.items).mapM fun type => do .ok (← t.objectsOf type).objects
    let choices ← objects.mapM Datum.items
    (combinations choices).mapM fun values => do
      let args ← (Datum.list values).joined ","
      .ok (.text ((← fluent.name.displayed) ++ "(" ++ args ++ ")"))

def groundedFluents (m : Model) (t : Tables) (kind : FluentKind) :
    Except Fault (List (String × List Datum)) := do
  (← m.orderedFluents kind).mapM fun fluent => do .ok (fluent.1, ← groundings t fluent.2)

/-! ### The fluent table -/

def placeFluents (m : Model) (kind : FluentKind) : Build Unit := do
  let fluents ← Build.lift (m.orderedFluents kind)
  let sizes ← Build.lift (m.sizes (← get) kind)
  modify fun t =>
    { t with fluents? := some ((fluents.zip sizes).foldl
        (fun table e => table.insert e.1.1 ⟨e.1.2, e.2⟩) (t.fluents?.getD .empty)) }

/-- Build the fluent table.  Observation fluents have no place in it. -/
def buildFluents (m : Model) : Build Unit := do
  modify fun t => { t with fluents? := some .empty }
  m.placeFluents .nonFluent
  m.placeFluents .state
  m.placeFluents .action
  m.placeFluents .intermediate

def build (m : Model) : Build Unit := do
  m.domain.build
  m.buildObjects
  m.buildFluents

end Model

end Rddl
