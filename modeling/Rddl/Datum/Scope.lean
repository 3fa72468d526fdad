/-
  Rddl/Datum/Scope.lean
  =====================
  **The fluents that an expression depends on.**

  The scope of an expression is the set of names of the parameterized variables
  met on a walk through its tree.  The walk does not enter the arguments of a
  parameterized variable.
-/
import Rddl.Datum.Listing
import Rddl.Sorting

namespace Rddl.Datum

mutual

def occurrences : Datum → Except Fault (List String)
  | .tuple ds => occurrencesAll ds
  | .list ds => occurrencesAll ds
  | .expression t => t.occurrences
  | .text _ => .ok []
  | _ => .error .wrongShape

/-- The names met on a walk through several items, up to the first variable mark. -/
def occurrencesAll : List Datum → Except Fault (List String)
  | [] => .ok []
  | .tuple ds :: rest => do .ok ((← occurrencesAll ds) ++ (← occurrencesAll rest))
  | .list ds :: rest => do .ok ((← occurrencesAll ds) ++ (← occurrencesAll rest))
  | .expression t :: rest => do .ok ((← t.occurrences) ++ (← occurrencesAll rest))
  | .text s :: rest =>
    if s = "pvar_expr" then
      match rest with
      | [] => .error .outOfRange
      | next :: _ => do
        let occurrence ← next.pair
        .ok [← fluentName occurrence.1 occurrence.2]
    else occurrencesAll rest
  | _ :: rest => occurrencesAll rest

end

/-- The scope of the expression with the given tree, each name once, in the order of
    code points. -/
def scope (t : Datum) : Except Fault (List String) := do
  .ok (sortNames (← t.occurrences)).eraseDups

end Rddl.Datum
