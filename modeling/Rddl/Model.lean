/-
  Rddl/Model.lean
  ===============
  **Models.**

  A model is a domain together with the attributes of a non-fluents block and of an
  instance.  Of several blocks of a kind the last counts.
-/
import Rddl.Domain

namespace Rddl

/-- The attributes of a non-fluents block or of an instance. -/
abbrev Attributes := Table String Datum

namespace Attributes

/-- Attributes with sections set over them, one after another. -/
def extend (base : Attributes) (sections : List (String × Datum)) : Attributes :=
  sections.foldl (fun t s => t.insert s.1 s.2) base

/-- The attributes of a non-fluents block: it has a name and, unless told otherwise, no objects. -/
def nonFluents (name : Datum) (sections : List (String × Datum)) : Attributes :=
  extend ⟨[("name", name), ("objects", .list [])]⟩ sections

def problem (name : Datum) (sections : List (String × Datum)) : Attributes :=
  extend ⟨[("name", name)]⟩ sections

end Attributes

structure Model where
  domain : Domain
  nonFluents : Attributes
  problem : Attributes
deriving Repr, Inhabited

namespace Model

/-- The model with the given blocks, all three of which are needed. -/
def ofBlocks (domain? : Option Domain) (nonFluents? problem? : Option Attributes) :
    Except Fault Model :=
  match domain?, nonFluents?, problem? with
  | none, _, _ => .error (.missingKey "domain")
  | some _, none, _ => .error (.missingKey "non_fluents")
  | some _, some _, none => .error (.missingKey "instance")
  | some domain, some nonFluents, some problem => .ok ⟨domain, nonFluents, problem⟩

end Model

namespace Document

/-- The last domain of a document. -/
def domain? : Document → Except Fault (Option Domain)
  | [] => .ok none
  | .domain b :: rest => do
    let first ← Domain.ofBlock b
    .ok (some ((← domain? rest).getD first))
  | _ :: rest => domain? rest

def nonFluents? (d : Document) : Option Attributes :=
  d.reverse.findSome? fun
    | .nonFluents b =>
      some (.nonFluents (.text b.name) (b.sections.map fun s => (s.key, s.datum)))
    | _ => none

def problem? (d : Document) : Option Attributes :=
  d.reverse.findSome? fun
    | .problem b => some (.problem (.text b.name) (b.sections.map fun s => (s.key, s.datum)))
    | _ => none

def model (d : Document) : Except Fault Model := do
  Model.ofBlocks (← d.domain?) d.nonFluents? d.problem?

end Document

end Rddl
