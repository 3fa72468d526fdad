/-
  Rddl/PVariable.lean
  ===================
  **Parameterized variables.**

  A parameterized variable has a name, a kind, a range, the types of its
  parameters, and either a default value or, for an intermediate fluent, a level.
-/
import Rddl.Datum.Listing

namespace Rddl

inductive FluentKind where
  | nonFluent | state | action | intermediate | observation
deriving DecidableEq, Repr, Inhabited

namespace FluentKind

def spelling : FluentKind → String
  | .nonFluent => "non-fluent"
  | .state => "state-fluent"
  | .action => "action-fluent"
  | .intermediate => "interm-fluent"
  | .observation => "observ-fluent"

end FluentKind

/-- A parameterized variable; each part is whatever datum it was given as. -/
structure PVariable where
  name : Datum
  kind : Datum
  range : Datum
  params : Datum := .absent
  default : Datum := .absent
  level : Datum := .absent
deriving Repr, Inhabited

namespace PVariable

def datum (p : PVariable) : Datum :=
  .pvariable p.name p.kind p.range p.params p.default p.level

def isOf (p : PVariable) (kind : FluentKind) : Bool := p.kind.isText kind.spelling

def arity (p : PVariable) : Except Fault Nat := p.params.arity

def fluentName (p : PVariable) : Except Fault String := Datum.fluentName p.name p.params

/-- The name with the parameter types, if there are any. -/
def signature (p : PVariable) : Except Fault String := p.datum.quoted

end PVariable

namespace Datum

/-- A datum as a parameterized variable; any other datum lacks the field asked for. -/
def asPVariable (d : Datum) (field : String) : Except Fault PVariable :=
  match d with
  | .pvariable name kind range params default level =>
    .ok ⟨name, kind, range, params, default, level⟩
  | _ => .error (d.lacks field)

end Datum

end Rddl
