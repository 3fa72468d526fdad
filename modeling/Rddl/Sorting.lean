/-
  Rddl/Sorting.lean
  =================
  **Sorting by insertion.**

  The sort is stable: items that compare equal keep their order.
-/

namespace Rddl

variable {α : Type}

/-- Insert an item before the first one that it does not come after. -/
def insertSorted (le : α → α → Bool) (x : α) : List α → List α
  | [] => [x]
  | y :: ys => if le x y then x :: y :: ys else y :: insertSorted le x ys

def sortWith (le : α → α → Bool) : List α → List α
  | [] => []
  | x :: xs => insertSorted le x (sortWith le xs)

/-- Sort names by code point. -/
def sortNames (names : List String) : List String := sortWith (fun a b => decide (a ≤ b)) names

end Rddl
