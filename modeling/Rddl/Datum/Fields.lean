/-
  Rddl/Datum/Fields.lean
  ======================
  **The fields of an expression.**

  Kind, arguments, value and scope are fields of expressions only, a name is a field
  of whatever stands for a fluent; asking any other datum for one is a fault that
  names the field.
-/
import Rddl.Datum.Scope

namespace Rddl.Datum

def kindOf (d : Datum) : Except Fault Datum := do .ok (← (← d.tree "etype").kind).datum

def argumentsOf (d : Datum) : Except Fault Datum := do (← d.tree "args").arguments

def isConstantOf (d : Datum) : Except Fault Bool := do
  (← d.tree "is_constant_expression").isConstant

def isPVariableOf (d : Datum) : Except Fault Bool := do
  (← d.tree "is_pvariable_expression").isPVariable

/-- The name of an expression that is a parameterized variable, of a declared variable,
    or of the fluent that a function defines. -/
def nameOf (d : Datum) : Except Fault String :=
  match d with
  | .expression t => t.name
  | .pvariable (.text name) .. => .ok name
  | .pvariable .. => .error .wrongShape
  | .cpf target _ => do (← target.item 1).occurrenceName
  | _ => .error (d.lacks "name")

def valueOf (d : Datum) : Except Fault Datum := do (← d.tree "value").value

def scopeOf (d : Datum) : Except Fault (List String) := do (← d.tree "scope").scope

end Rddl.Datum
