/-
  Rddl/FluentName.lean
  ====================
  **Fluent names with and without a prime.**

  A fluent name is a functor, a slash and the number of arguments.  The value of a
  state fluent in the next state is written with a prime after the functor.
-/
import Rddl.Fault

namespace Rddl.FluentName

/-- The parts of a name before and after its first slash. -/
def split? (name : List Char) : Option (List Char × List Char) :=
  match name.dropWhile (· ≠ '/') with
  | [] => none
  | _ :: arity => some (name.takeWhile (· ≠ '/'), arity)

/-- The current-state name for a next-state name: the character before the slash is
    dropped.  When the name starts with the slash, the whole name but its last
    character stands before it. -/
def unprimed (name : String) : Except Fault String :=
  match split? name.toList with
  | none => .error .noArity
  | some (functor, arity) =>
    let kept := if functor.isEmpty then name.toList.dropLast else functor.dropLast
    .ok (String.ofList (kept ++ '/' :: arity))

/-- The next-state name for a current-state name: a prime before the slash. -/
def primed (name : String) : Except Fault String :=
  match split? name.toList with
  | none => .error .noArity
  | some (functor, arity) => .ok (String.ofList (functor ++ '\'' :: '/' :: arity))

end Rddl.FluentName
