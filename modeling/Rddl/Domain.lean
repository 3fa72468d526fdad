/-
  Rddl/Domain.lean
  ================
  **Domains.**

  A domain holds its sections as data.  Variables, functions and reward must be
  given; the other sections are empty when they are not.
-/
import Rddl.Document
import Rddl.Table

namespace Rddl

structure Domain where
  name : Datum
  requirements : Datum
  pvariables : Datum
  cpfs : Datum
  reward : Datum
  types : Datum
  preconditions : Datum
  invariants : Datum
  constraints : Datum
deriving Repr, Inhabited

def Table.require {α : Type} (t : Table String α) (key : String) : Except Fault α :=
  match t.find? key with
  | some value => .ok value
  | none => .error (.missingKey key)

def Table.orEmpty (t : Table String Datum) (key : String) : Datum :=
  (t.find? key).getD (.list [])

namespace Domain

def ofSections (name requirements : Datum) (sections : Table String Datum) :
    Except Fault Domain := do
  let pvariables ← sections.require "pvariables"
  let cpfs ← sections.require "cpfs"
  let reward ← sections.require "reward"
  .ok {
    name, requirements, pvariables, cpfs, reward
    types := sections.orEmpty "types"
    preconditions := sections.orEmpty "preconds"
    invariants := sections.orEmpty "invariants"
    constraints := sections.orEmpty "constraints" }

/-- The domain of a block: of several sections with one key the last counts. -/
def ofBlock (b : DomainBlock) : Except Fault Domain :=
  ofSections (.text b.name) ((b.requirements.map Datum.texts).getD .absent)
    (Table.ofList (b.sections.map fun s => (s.key, s.datum)))

end Domain

end Rddl
