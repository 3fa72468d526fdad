/-
  Rddl/Model/Dependencies.lean
  ============================
  **The fluents that an expression depends on, through intermediate ones.**

  An expression depends on the fluents in its scope.  An intermediate fluent there
  is followed to the body of its function, and so on; what remains are the other
  fluents.  A fluent is followed every time that it is met, so a search comes to an
  end only where no intermediate fluent depends on itself.
-/
import Rddl.Model.Grounding

namespace Rddl

/-- A search for dependencies: the fluents found so far, and the expressions still to
    visit. -/
structure Search where
  found : Table String PVariable
  pending : List Datum
deriving Repr, Inhabited

namespace Search

def of (e : Datum) : Search := ⟨.empty, [e]⟩

end Search

namespace Model

def intermediateBody (m : Model) (name : String) : Except Fault Datum := do
  match ← m.domain.intermediateCpf? name with
  | some cpf => cpf.functionBody
  | none => .error (Datum.absent.lacks "expr")

/-- Take note of a name in the scope of a visited expression. -/
def visitName (m : Model) (t : Tables) (s : Search) (name : String) : Except Fault Search := do
  match (← t.fluents).find? name with
  | none => .error (.missingKey name)
  | some entry =>
    if entry.fluent.isOf .intermediate then do
      let body ← m.intermediateBody name
      .ok { s with pending := body :: s.pending }
    else .ok { s with found := s.found.insert name entry.fluent }

/-- Visit an expression.  Its scope is a set, whose names are put in some order. -/
def visit (m : Model) (t : Tables) (order : List String → List String) (s : Search) (e : Datum) :
    Except Fault Search := do
  (order (← e.scopeOf)).foldlM (m.visitName t) s

/-- Visit pending expressions, the latest first, until there is none.  Each time the order
    of a scope is chosen anew.  A search that never ends has no outcome. -/
def search (m : Model) (t : Tables) (order : Search → List String → List String) (s : Search) :
    Option (Except Fault Search) :=
  match s.pending with
  | [] => some (.ok s)
  | e :: pending =>
    match m.visit t (order s) { s with pending } e with
    | .ok next => m |>.search t order next
    | .error cause => some (.error cause)
partial_fixpoint

def dependencies (m : Model) (t : Tables) (e : Datum) : Except Fault (Table String PVariable) :=
  match m.search t (fun _ names => names) (.of e) with
  | some (.ok s) => .ok s.found
  | some (.error cause) => .error cause
  -- a search that never ends does not come back with this
  | none => .error .wrongShape

end Model

end Rddl
