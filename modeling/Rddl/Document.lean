/-
  Rddl/Document.lean
  ==================
  **Abstract syntax of documents.**

  A document is a sequence of blocks, a block a sequence of sections.  Every
  section has a key under which its block holds it, a datum that is held there, and
  a title under which the reader announces it.
-/
import Rddl.Expr.Tree
import Rddl.PVariable

namespace Rddl

/-! ### Declarations -/

inductive Constant where
  | truth (value : Bool)
  | integer (value : Int)
  | real (value : Binary64)
  | positiveInfinity
  | negativeInfinity
  | enumValue (name : String)
  | ident (name : String)
deriving DecidableEq, Repr, Inhabited

namespace Constant

def datum : Constant → Datum
  | .truth value => .truth value
  | .integer value => .integer value
  | .real value => .real value
  | .positiveInfinity => .text Keyword.posInf.spelling
  | .negativeInfinity => .text Keyword.negInf.spelling
  | .enumValue name => .text name
  | .ident name => .text name

end Constant

inductive TypeBody where
  | objects
  | enumeration (values : List String)
deriving DecidableEq, Repr, Inhabited

structure TypeDecl where
  name : String
  body : TypeBody
deriving DecidableEq, Repr, Inhabited

namespace TypeDecl

def datum (d : TypeDecl) : Datum :=
  .tuple [.text d.name,
    match d.body with
    | .objects => .text Keyword.objectWord.spelling
    | .enumeration values => Datum.texts values]

end TypeDecl

/-- The kind of a declared variable, with the constant that belongs to the kind. -/
inductive Role where
  | nonFluent (default : Constant)
  | state (default : Constant)
  | action (default : Constant)
  | intermediate (level : Constant)
  | observation
deriving DecidableEq, Repr, Inhabited

namespace Role

def kind : Role → FluentKind
  | .nonFluent _ => .nonFluent
  | .state _ => .state
  | .action _ => .action
  | .intermediate _ => .intermediate
  | .observation => .observation

def default : Role → Datum
  | .nonFluent default => default.datum
  | .state default => default.datum
  | .action default => default.datum
  | .intermediate _ => .absent
  | .observation => .absent

def level : Role → Datum
  | .intermediate level => level.datum
  | _ => .absent

end Role

structure PVarDecl where
  name : String
  params : Option (List String)
  range : String
  role : Role
deriving DecidableEq, Repr, Inhabited

namespace PVarDecl

def pvariable (d : PVarDecl) : PVariable where
  name := .text d.name
  kind := .text d.role.kind.spelling
  range := .text d.range
  params := (d.params.map Datum.texts).getD .absent
  default := d.role.default
  level := d.role.level

end PVarDecl

/-- The definition of a conditional probability function. -/
structure CpfDecl where
  target : Occurrence
  body : Expr
deriving Inhabited

namespace CpfDecl

def datum (d : CpfDecl) : Datum := .cpf d.target.tree d.body.datum

end CpfDecl

structure ObjectsDecl where
  type : String
  objects : List String
deriving DecidableEq, Repr, Inhabited

namespace ObjectsDecl

def datum (d : ObjectsDecl) : Datum := .tuple [.text d.type, Datum.texts d.objects]

/-- The datum of an objects section; one without declarations holds an absent entry. -/
def sectionDatum (ds : List ObjectsDecl) : Datum :=
  if ds.isEmpty then .list [.absent] else .list (ds.map datum)

end ObjectsDecl

/-- The value of a grounded fluent. -/
structure Assignment where
  name : String
  args : Option (List String)
  value : Constant
deriving DecidableEq, Repr, Inhabited

namespace Assignment

def datum (a : Assignment) : Datum :=
  .tuple [.tuple [.text a.name, (a.args.map Datum.texts).getD .absent], a.value.datum]

end Assignment

/-- A count that may be unbounded. -/
inductive Bound where
  | finite (count : Nat)
  | unbounded
deriving DecidableEq, Repr, Inhabited

namespace Bound

def datum : Bound → Datum
  | .finite count => .integer count
  | .unbounded => .text Keyword.posInf.spelling

end Bound

/-- When an instance ends. -/
inductive Horizon where
  | steps (count : Bound)
  | condition (test : Expr)
deriving Inhabited

namespace Horizon

def datum : Horizon → Datum
  | .steps count => count.datum
  | .condition test => test.datum

end Horizon

/-! ### Sections -/

inductive DomainSection where
  | types (decls : List TypeDecl)
  | pvariables (decls : List PVarDecl)
  | cpfs (header : Keyword) (decls : List CpfDecl)
  | reward (body : Expr)
  | preconditions (conditions : List Expr)
  | constraints (conditions : List Expr)
  | invariants (conditions : List Expr)
deriving Inhabited

namespace DomainSection

def key : DomainSection → String
  | .types _ => "types"
  | .pvariables _ => "pvariables"
  | .cpfs .. => "cpfs"
  | .reward _ => "reward"
  | .preconditions _ => "preconds"
  | .constraints _ => "constraints"
  | .invariants _ => "invariants"

def title : DomainSection → String
  | .types _ => "types"
  | .pvariables _ => "pvariables"
  | .cpfs .. => "cpfs"
  | .reward _ => "reward"
  | .preconditions _ => "action-preconditions"
  | .constraints _ => "state-action-constraints"
  | .invariants _ => "invariants"

def datum : DomainSection → Datum
  | .types decls => .list (decls.map TypeDecl.datum)
  | .pvariables decls => .list (decls.map fun d => d.pvariable.datum)
  | .cpfs header decls => .tuple [.text header.spelling, .list (decls.map CpfDecl.datum)]
  | .reward body => body.datum
  | .preconditions conditions => .list (conditions.map Expr.datum)
  | .constraints conditions => .list (conditions.map Expr.datum)
  | .invariants conditions => .list (conditions.map Expr.datum)

end DomainSection

inductive NonFluentsSection where
  | domain (name : String)
  | objects (decls : List ObjectsDecl)
  | values (assignments : List Assignment)
deriving DecidableEq, Repr, Inhabited

namespace NonFluentsSection

def key : NonFluentsSection → String
  | .domain _ => "domain"
  | .objects _ => "objects"
  | .values _ => "init_non_fluent"

/-- The title of a section, if it is announced. -/
def title? : NonFluentsSection → Option String
  | .domain _ => none
  | .objects _ => some "objects"
  | .values _ => some "init-non-fluent"

def datum : NonFluentsSection → Datum
  | .domain name => .text name
  | .objects decls => ObjectsDecl.sectionDatum decls
  | .values assignments => .list (assignments.map Assignment.datum)

end NonFluentsSection

inductive InstanceSection where
  | domain (name : String)
  | nonFluents (name : String)
  | objects (decls : List ObjectsDecl)
  | initialState (assignments : List Assignment)
  | maxActions (count : Bound)
  | horizon (limit : Horizon)
  | discount (factor : Binary64)
deriving Inhabited

namespace InstanceSection

def key : InstanceSection → String
  | .domain _ => "domain"
  | .nonFluents _ => "non_fluents"
  | .objects _ => "objects"
  | .initialState _ => "init_state"
  | .maxActions _ => "max_nondef_actions"
  | .horizon _ => "horizon"
  | .discount _ => "discount"

/-- The title of a section, if it is announced. -/
def title? : InstanceSection → Option String
  | .domain _ => none
  | .nonFluents _ => some "non-fluents"
  | .objects _ => some "objects"
  | .initialState _ => some "init-state"
  | .maxActions _ => some "max-non-def-actions"
  | .horizon _ => some "horizon"
  | .discount _ => some "discount"

def datum : InstanceSection → Datum
  | .domain name => .text name
  | .nonFluents name => .text name
  | .objects decls => ObjectsDecl.sectionDatum decls
  | .initialState assignments => .list (assignments.map Assignment.datum)
  | .maxActions count => count.datum
  | .horizon limit => limit.datum
  | .discount factor => .real factor

end InstanceSection

/-! ### Blocks -/

structure DomainBlock where
  name : String
  requirements : Option (List String)
  sections : List DomainSection
deriving Inhabited

structure NonFluentsBlock where
  name : String
  sections : List NonFluentsSection
deriving Inhabited

structure InstanceBlock where
  name : String
  sections : List InstanceSection
deriving Inhabited

inductive Block where
  | domain (block : DomainBlock)
  | nonFluents (block : NonFluentsBlock)
  | problem (block : InstanceBlock)
deriving Inhabited

abbrev Document := List Block

end Rddl
