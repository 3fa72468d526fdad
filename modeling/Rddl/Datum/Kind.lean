/-
  Rddl/Datum/Kind.lean
  ====================
  **What kind of expression a tree is, and what its arguments are.**

  The head of a tree, its first item, decides.  Brackets do not matter: the items
  of a bracketed expression are those of the expression inside.  A tree whose head
  is not known is of an unknown kind and has no arguments.
-/
import Rddl.Datum.Items

namespace Rddl

/-- The form of a tree, as its head tells it. -/
inductive Form where
  | constant
  | pvariable
  | enumValue
  | variable
  | random
  | arithmetic
  | boolean
  | relational
  | function
  | aggregation (operator : String)
  | control (construct : String)
  | unknown
deriving DecidableEq, Repr

namespace Form

def ofHead (head : String) : Form :=
  if ["number", "boolean"].contains head then .constant
  else if head = "pvar_expr" then .pvariable
  else if head = "penum_expr" then .enumValue
  else if head = "param_expr" then .variable
  else if head = "randomvar" then .random
  else if ["+", "-", "*", "/"].contains head then .arithmetic
  else if ["^", "&", "|", "~", "=>", "<=>"].contains head then .boolean
  else if [">=", "<=", "<", ">", "==", "~="].contains head then .relational
  else if head = "func" then .function
  else if ["sum", "prod", "avg", "forall", "exists"].contains head then .aggregation head
  else if head = "max" then .aggregation "maximum"
  else if head = "min" then .aggregation "minimum"
  else if ["if", "switch"].contains head then .control head
  else .unknown

def category : Form → String
  | .constant => "constant"
  | .pvariable => "pvar"
  | .enumValue => "penum"
  | .variable => "param"
  | .random => "randomvar"
  | .arithmetic => "arithmetic"
  | .boolean => "boolean"
  | .relational => "relational"
  | .function => "func"
  | .aggregation _ => "aggregation"
  | .control _ => "control"
  | .unknown => "UNKOWN"

/-- Whether the arguments of an expression are listed on its own line. -/
def isInline : Form → Bool
  | .pvariable | .constant | .enumValue => true
  | _ => false

end Form

/-- The kind of an expression: its form and a detail such as the operator. -/
structure Kind where
  form : Form
  detail : Datum
deriving Repr

namespace Kind

def datum (k : Kind) : Datum := .tuple [.text k.form.category, k.detail]

end Kind

namespace Datum

def form (t : Datum) : Except Fault Form := do
  match ← t.item 0 with
  | .text head => .ok (Form.ofHead head)
  | _ => .ok .unknown

def kind (t : Datum) : Except Fault Kind := do
  let form ← t.form
  let detail ← match form with
    | .constant => do .ok (.text (← t.item 1).classTag)
    | .pvariable | .enumValue | .random | .function => do (← t.item 1).item 0
    | .variable => t.item 1
    | .arithmetic | .boolean | .relational => t.item 0
    | .aggregation operator => .ok (.text operator)
    | .control construct => .ok (.text construct)
    | .unknown => .ok (.text "UNKOWN")
  .ok ⟨form, detail⟩

def arguments (t : Datum) : Except Fault Datum := do
  match ← t.form with
  | .random | .function => (← t.item 1).item 1
  | .unknown => .ok (.list [])
  | _ => t.item 1

def isConstant (t : Datum) : Except Fault Bool := do .ok ((← t.kind).form == .constant)

def isPVariable (t : Datum) : Except Fault Bool := do .ok ((← t.kind).form == .pvariable)

def value (t : Datum) : Except Fault Datum := do
  if ← t.isConstant then t.arguments else .error .notANumber

end Datum

end Rddl
