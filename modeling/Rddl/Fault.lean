/-
  Rddl/Fault.lean
  ===============
  **Why an operation on a model or an expression fails.**

  Models may be assembled from untyped data, so every operation on them checks
  the shape of what it is given.  A `Fault` names the cause; `Fault.message` is
  the one place where causes are put into words.
-/

namespace Rddl

/-- The cause of a failed operation. -/
inductive Fault where
  /-- A value of one shape stands where another shape is needed. -/
  | wrongShape
  /-- A sequence has no item at the position asked for. -/
  | outOfRange
  /-- A table has no entry under the key. -/
  | missingKey (key : String)
  /-- An object of the given class has no such field. -/
  | missingField (owner field : String)
  /-- Fewer than two items stand where a pair is needed. -/
  | tooFewItems (count : Nat)
  /-- More than two items stand where a pair is needed. -/
  | tooManyItems
  /-- An entry of a list of key-value pairs does not have two items. -/
  | notAnEntry (position count : Nat)
  /-- The name of an expression that is no parameterized variable. -/
  | notAPVariable
  /-- The value of an expression that is no constant. -/
  | notANumber
  /-- A fluent name without the slash before its arity. -/
  | noArity
  /-- An integer literal with more digits than are accepted. -/
  | overlongInteger (digits : Nat)
deriving DecidableEq, Repr, Inhabited

/-- The largest number of digits of an integer literal, leading zeros included. -/
def digitLimit : Nat := 4300

/-- The wording of a fault; faults of shape and range carry none. -/
def Fault.message : Fault → Option String
  | .wrongShape => none
  | .outOfRange => none
  | .missingKey key => some key
  | .missingField owner field => some s!"'{owner}' object has no attribute '{field}'"
  | .tooFewItems count => some s!"not enough values to unpack (expected 2, got {count})"
  | .tooManyItems => some "too many values to unpack (expected 2)"
  | .notAnEntry position count =>
    some s!"dictionary update sequence element #{position} has length {count}; 2 is required"
  | .notAPVariable => some "Expression is not a pvariable."
  | .notANumber => some "Expression is not a number."
  | .noArity => some "substring not found"
  | .overlongInteger digits =>
    some (s!"Exceeds the limit ({digitLimit} digits) for integer string conversion: " ++
      s!"value has {digits} digits; use sys.set_int_max_str_digits() to increase the limit")

end Rddl
