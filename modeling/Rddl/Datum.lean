/-
  Rddl/Datum.lean
  ===============
  **Untyped trees.**

  A `Datum` is the exchange form of everything a document can hold.  The reader
  produces data of a few fixed shapes, but a model may also be put together from
  data by hand, so the operations on data are partial: each states the shape it
  needs and fails with a `Fault` on any other.
-/
import Rddl.Fault
import Rddl.Binary64

namespace Rddl

/-- An untyped tree. -/
inductive Datum where
  | text (value : String)
  | integer (value : Int)
  | real (value : Binary64)
  | truth (value : Bool)
  | absent
  | tuple (items : List Datum)
  | list (items : List Datum)
  /-- An expression, as the tree that it wraps; brackets wrap an expression again. -/
  | expression (tree : Datum)
  /-- A parameterized variable with its declaration. -/
  | pvariable (name kind range params default level : Datum)
  /-- A conditional probability function: the variable it defines and its body. -/
  | cpf (target body : Datum)
deriving Repr, Inhabited

namespace Datum

/-- The class of a datum, as messages name it. -/
def className : Datum → String
  | .text _ => "str"
  | .integer _ => "int"
  | .real _ => "float"
  | .truth _ => "bool"
  | .absent => "NoneType"
  | .tuple _ => "tuple"
  | .list _ => "list"
  | .expression _ => "Expression"
  | .pvariable .. => "PVariable"
  | .cpf .. => "CPF"

/-- The class of a datum, as the kind of a constant expression names it. -/
def classTag : Datum → String
  | .expression _ => "<class 'pyrddl.expr.Expression'>"
  | .pvariable .. => "<class 'pyrddl.pvariable.PVariable'>"
  | .cpf .. => "<class 'pyrddl.cpf.CPF'>"
  | d => s!"<class '{d.className}'>"

/-- The fault of asking a datum for a field that its class does not have. -/
def lacks (d : Datum) (field : String) : Fault := .missingField d.className field

def isText (d : Datum) (s : String) : Bool :=
  match d with
  | .text t => t == s
  | _ => false

def isAbsent : Datum → Bool
  | .absent => true
  | _ => false

def texts (ss : List String) : Datum := .list (ss.map .text)

mutual

/-- Number of nodes of a datum, a bound for every walk through it. -/
def size : Datum → Nat
  | .tuple items => sizeAll items + 1
  | .list items => sizeAll items + 1
  | .expression tree => tree.size + 1
  | .pvariable name kind range params default level =>
    name.size + kind.size + range.size + params.size + default.size + level.size + 1
  | .cpf target body => target.size + body.size + 1
  | _ => 1

def sizeAll : List Datum → Nat
  | [] => 0
  | d :: ds => d.size + sizeAll ds

end

end Datum

end Rddl
