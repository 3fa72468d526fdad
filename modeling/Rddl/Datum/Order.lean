/-
  Rddl/Datum/Order.lean
  =====================
  **Comparing data.**

  Numbers compare by value whatever their form, truth values counting as zero and
  one; texts compare by code point; tuples and lists compare by their first
  difference.  Data of different kinds are different and have no order.
-/
import Rddl.Datum
import Rddl.Sorting

namespace Rddl

namespace Datum

/-! ### Equality and order -/

/-- Whether a datum is a number or a truth value. -/
def isNumeric : Datum → Bool
  | .integer _ | .truth _ | .real _ => true
  | _ => false

/-- The place of a numeric datum on the extended number line; an undefined number has none. -/
def point? : Datum → Option Binary64.Point
  | .integer n => some (.value n 0)
  | .truth b => some (.value (if b then 1 else 0) 0)
  | .real x => x.point?
  | _ => none

/-- Whether two numeric data have a place each, in the given order. -/
def numericOrder (order : Ordering) (a b : Datum) : Bool :=
  match a.point?, b.point? with
  | some p, some q => p.compare q == order
  | _, _ => false

mutual

def agrees : Datum → Datum → Bool
  | .text a, .text b => a == b
  | .absent, .absent => true
  | .tuple as, .tuple bs => agreeAll as bs
  | .list as, .list bs => agreeAll as bs
  | a, b => numericOrder .eq a b

def agreeAll : List Datum → List Datum → Bool
  | [], [] => true
  | a :: as, b :: bs => agrees a b && agreeAll as bs
  | _, _ => false

end

mutual

/-- Whether one datum comes before another, when the two have an order. -/
def less? : Datum → Datum → Option Bool
  | .text a, .text b => some (decide (a < b))
  | .tuple as, .tuple bs => lessAll? as bs
  | .list as, .list bs => lessAll? as bs
  | a, b => if a.isNumeric && b.isNumeric then some (numericOrder .lt a b) else none

/-- Whether one sequence comes before another, by their first difference. -/
def lessAll? : List Datum → List Datum → Option Bool
  | [], [] => some false
  | [], _ :: _ => some true
  | _ :: _, [] => some false
  | a :: as, b :: bs => if agrees a b then lessAll? as bs else less? a b

end

/-! ### Sorting -/

def haveOrder : List (List Datum) → Bool
  | [] => true
  | k :: ks => ks.all (fun l => (lessAll? k l).isSome) && haveOrder ks

/-- Sort by a key, keeping the order of items with equal keys; keys without an order are
    refused. -/
def sortOn {α : Type} (key : α → List Datum) (xs : List α) : Except Fault (List α) :=
  if haveOrder (xs.map key) then
    .ok (sortWith (fun x y => lessAll? (key y) (key x) != some true) xs)
  else .error .wrongShape

/-! ### Data as keys of a table -/

mutual

/-- Whether a datum can be a key: lists cannot, nor tuples that hold one. -/
def isKey : Datum → Bool
  | .list _ => false
  | .tuple ds => areKeys ds
  | _ => true

def areKeys : List Datum → Bool
  | [] => true
  | d :: ds => d.isKey && areKeys ds

end

end Datum

structure Key where
  datum : Datum
deriving Repr, Inhabited

/-- Keys are compared by value. -/
instance : BEq Key := ⟨fun a b => a.datum.agrees b.datum⟩

def Datum.key (d : Datum) : Except Fault Key := if d.isKey then .ok ⟨d⟩ else .error .wrongShape

end Rddl
