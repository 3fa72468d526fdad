/-
  Rddl/Datum/Items.lean
  =====================
  **The items of a datum.**

  Tuples and lists have items, a text has its characters, and an expression has
  the items of the tree it wraps.  All other data have none.
-/
import Rddl.Datum

namespace Rddl.Datum

def items : Datum → Except Fault (List Datum)
  | .tuple ds => .ok ds
  | .list ds => .ok ds
  | .text s => .ok (s.toList.map fun c => .text (String.ofList [c]))
  | .expression tree => tree.items
  | _ => .error .wrongShape

/-- The item at a position, counted from zero. -/
def item (d : Datum) (i : Nat) : Except Fault Datum := do
  match (← d.items)[i]? with
  | some x => .ok x
  | none => .error .outOfRange

/-- The item at a position; a negative position counts from the end. -/
def itemAt (d : Datum) (i : Int) : Except Fault Datum := do
  let ds ← d.items
  if 0 ≤ i then d.item i.toNat
  else if 0 ≤ i + ds.length then d.item (i + ds.length).toNat
  else .error .outOfRange

def length : Datum → Except Fault Nat
  | .tuple ds => .ok ds.length
  | .list ds => .ok ds.length
  | .text s => .ok s.length
  | _ => .error .wrongShape

def pair (d : Datum) : Except Fault (Datum × Datum) := do
  match ← d.items with
  | [x, y] => .ok (x, y)
  | [] => .error (.tooFewItems 0)
  | [_] => .error (.tooFewItems 1)
  | _ => .error .tooManyItems

/-- The characters or texts of a datum, joined by a separator. -/
def joined (d : Datum) (separator : String) : Except Fault String := do
  let parts ← (← d.items).mapM fun
    | .text s => .ok s
    | _ => .error .wrongShape
  .ok (separator.intercalate parts)

/-- Number of arguments: none when the argument list is absent. -/
def arity (params : Datum) : Except Fault Nat :=
  if params.isAbsent then .ok 0 else params.length

/-- The tree wrapped by an expression; any other datum lacks the field asked for. -/
def tree (d : Datum) (field : String) : Except Fault Datum :=
  match d with
  | .expression t => .ok t
  | _ => .error (d.lacks field)

end Rddl.Datum
