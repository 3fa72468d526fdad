/-
  Rddl/Domain/Fluents.lean
  ========================
  **The fluents of a domain and their functions.**

  Fluents are known by name and number of parameters; of several declarations with
  one name the last counts.  Each kind has a canonical order: names by code point,
  and intermediate fluents by level first.
-/
import Rddl.Domain
import Rddl.Datum.Fields
import Rddl.Datum.Order
import Rddl.FluentName

namespace Rddl

/-- The test for a kind, as messages name it. -/
def FluentKind.testName : FluentKind → String
  | .nonFluent => "is_non_fluent"
  | .state => "is_state_fluent"
  | .action => "is_action_fluent"
  | .intermediate => "is_intermediate_fluent"
  | .observation => "is_observ_fluent"

namespace Datum

def functionBody (d : Datum) : Except Fault Datum :=
  match d with
  | .cpf _ body => .ok body
  | _ => .error (d.lacks "expr")

end Datum

namespace Domain

/-! ### Fluents -/

def addFluent (kind : FluentKind) (fluents : Table String PVariable) (d : Datum) :
    Except Fault (Table String PVariable) := do
  let p ← d.asPVariable kind.testName
  if p.isOf kind then .ok (fluents.insert (← p.fluentName) p) else .ok fluents

def fluents (d : Domain) (kind : FluentKind) : Except Fault (Table String PVariable) := do
  (← d.pvariables.items).foldlM (addFluent kind) .empty

/-- The names of the fluents of a kind, in canonical order. -/
def ordering (d : Domain) (kind : FluentKind) : Except Fault (List String) := do
  let fluents ← d.fluents kind
  match kind with
  | .intermediate => do
    let sorted ← Datum.sortOn (fun p : PVariable => [p.level, p.name]) fluents.values
    sorted.mapM PVariable.fluentName
  | _ => .ok (sortNames fluents.keys)

/-! ### Functions -/

/-- A function with the name of the fluent it defines. -/
structure NamedCpf where
  name : String
  cpf : Datum
  fluent : PVariable
deriving Repr, Inhabited

def cpfList (d : Domain) : Except Fault (List Datum) := do (← d.cpfs.pair).2.items

/-- The functions whose names, changed as told, are fluents of a kind. -/
def cpfsOf (d : Domain) (kind : FluentKind) (change : String → Except Fault String) :
    Except Fault (List NamedCpf) := do
  (← d.cpfList).filterMapM fun cpf => do
    let name ← cpf.nameOf
    let changed ← change name
    let fluents ← d.fluents kind
    .ok ((fluents.find? changed).map fun fluent => ⟨name, cpf, fluent⟩)

/-- The functions of intermediate fluents, by level and then by name. -/
def intermediateCpfs (d : Domain) : Except Fault (List NamedCpf) := do
  Datum.sortOn (fun c => [c.fluent.level, .text c.name]) (← d.cpfsOf .intermediate .ok)

/-- The functions of state fluents, whose names have a prime, by name. -/
def stateCpfs (d : Domain) : Except Fault (List NamedCpf) := do
  let cpfs ← d.cpfsOf .state FluentName.unprimed
  .ok (sortWith (fun a b => decide (a.name ≤ b.name)) cpfs)

def observationCpfs (d : Domain) : Except Fault (List NamedCpf) := do
  let cpfs ← d.cpfsOf .observation .ok
  .ok (sortWith (fun a b => decide (a.name ≤ b.name)) cpfs)

/-- The first function of an intermediate fluent with the given name. -/
def intermediateCpf? (d : Domain) (name : String) : Except Fault (Option Datum) := do
  .ok (((← d.intermediateCpfs).find? fun c => c.name == name).map NamedCpf.cpf)

def nextStateOrdering (d : Domain) : Except Fault (List String) := do
  .ok ((← d.stateCpfs).map NamedCpf.name)

end Domain

end Rddl
