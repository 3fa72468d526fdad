/-
  Rddl/Report.lean
  ================
  **The report on a model.**

  The short report has one heading per block; the long one lists what the blocks
  hold.  A report that fails keeps the lines written before.
-/
import Rddl.Domain.Fluents
import Rddl.Model

namespace Rddl

/-- A part of a report: it adds lines to those written so far, the latest first. -/
abbrev Report := EStateM Fault (List String)

namespace Report

def line (text : String) : Report Unit := modify fun lines => text :: lines

def gap : Report Unit := line ""

def lift {α : Type} (x : Except Fault α) : Report α :=
  match x with
  | .ok a => pure a
  | .error cause => throw cause

/-- The lines of a report with the fault that ended it, if any. -/
def run (r : Report Unit) : List String × Option Fault :=
  match r [] with
  | .ok _ lines => (lines.reverse, none)
  | .error cause lines => (lines.reverse, some cause)

/-! ### Parts -/

def heading (block : String) (name : Datum) : Report Unit := do
  let rule := "*********************************************************"
  line rule
  line (" RDDL " ++ block ++ " = " ++ (← lift name.displayed))
  line rule

def types (d : Domain) : Report Unit := do
  let names ← lift (do (← d.types.items).mapM fun t => t.item 0)
  if !names.isEmpty then
    line (">> types: " ++ (← lift ((Datum.list names).joined ",")))

def fluent (name : String) (p : PVariable) : Report Unit := do
  let range ← lift p.range.displayed
  if p.isOf .intermediate then
    line ("    - " ++ name ++ " : range=" ++ range ++ ", level=" ++ (← lift p.level.displayed))
  else
    line ("    - " ++ name ++ " : range=" ++ range ++ ", default=" ++ (← lift p.default.displayed))

def fluents (title : String) (d : Domain) (kind : FluentKind) : Report Unit := do
  let table ← lift (d.fluents kind)
  line (">> " ++ title ++ ":")
  table.entries.forM fun entry => fluent entry.1 entry.2
  gap

/-- A name with its arguments, which are left out when there are none. -/
def applied (name args : Datum) : Except Fault String := do
  let joined ← if args.isAbsent then .ok "" else args.joined ", "
  let name ← name.displayed
  .ok (if joined.isEmpty then name else name ++ "(" ++ joined ++ ")")

def cpf (d : Datum) : Report Unit := do
  match d with
  | .cpf target body => do
    let occurrence ← lift (target.item 1)
    let name ← lift (occurrence.item 0)
    let args ← lift (occurrence.item 1)
    line ((← lift (applied name args)) ++ " = ")
    line (← lift body.displayed)
    gap
  | _ => throw (d.lacks "pvar")

def cpfs (title : String) (cpfs : Except Fault (List Domain.NamedCpf)) : Report Unit := do
  let cpfs ← lift cpfs
  line (">> " ++ title ++ ":")
  cpfs.forM fun c => cpf c.cpf

def reward (d : Domain) : Report Unit := do
  line ">> reward:"
  gap
  line (← lift d.reward.displayed)
  gap

/-- The conditions of a section, which is left out when it is empty. -/
def conditions (title : String) (conditions : Datum) : Report Unit := do
  let items ← lift conditions.items
  if !items.isEmpty then
    line (">> " ++ title ++ ":")
    gap
    items.forM fun c => do
      line (← lift c.displayed)
      gap

def assignment (d : Datum) : Report Unit := do
  let target ← lift (d.item 0)
  let name ← lift (target.item 0)
  let args ← lift (target.item 1)
  let value ← lift (d.item 1)
  line ((← lift (applied name args)) ++ " = " ++ (← lift value.displayed))

def assignments (title : String) (values : Datum) : Report Unit := do
  line (">> " ++ title ++ ":")
  (← lift values.items).forM assignment

def objects (d : Datum) : Report Unit := do
  let (type, objects) ← lift d.pair
  let names ← lift (objects.joined ",")
  line ("     - " ++ (← lift type.displayed) ++ ": " ++ names)

/-! ### Blocks -/

def domain (d : Domain) (verbose : Bool) : Report Unit := do
  heading "domain" d.name
  gap
  if verbose then
    types d
    fluents "non-fluents" d .nonFluent
    fluents "state-fluents" d .state
    fluents "intermediate-fluents" d .intermediate
    fluents "action-fluents" d .action
    cpfs "state_cpfs" d.stateCpfs
    cpfs "intermediate_cpfs" d.intermediateCpfs
    reward d
    conditions "preconds" d.preconditions
    conditions "constraints" d.constraints
    conditions "invariants" d.invariants

def requiredOf (owner : String) (a : Attributes) (key : String) : Report Datum :=
  match a.find? key with
  | some value => pure value
  | none => throw (.missingField owner key)

def nonFluents (a : Attributes) (verbose : Bool) : Report Unit := do
  heading "non-fluents" (← requiredOf "NonFluents" a "name")
  if verbose then
    match a.find? "objects" with
    | some listed => do
      line ">> objects:"
      (← lift listed.items).forM objects
      gap
    | none => pure ()
    match a.find? "init_non_fluent" with
    | some values => assignments "non-fluents" values
    | none => pure ()
  gap

def setting (a : Attributes) (key : String) : Report Unit := do
  let value ← requiredOf "Instance" a key
  line (key ++ " = " ++ (← lift value.displayed))

def problem (a : Attributes) (verbose : Bool) : Report Unit := do
  heading "instance" (← requiredOf "Instance" a "name")
  if verbose then
    setting a "horizon"
    setting a "max_nondef_actions"
    setting a "discount"
    gap
    assignments "init-state" (← requiredOf "Instance" a "init_state")
  gap

def model (m : Model) (verbose : Bool) : Report Unit := do
  domain m.domain verbose
  nonFluents m.nonFluents verbose
  problem m.problem verbose

end Report

end Rddl
