/-
  Rddl/Binary64.lean
  ==================
  **Numbers with a decimal point.**

  A decimal literal denotes the binary64 number nearest to it, ties going to the
  even neighbour.  The number is kept exactly, as a signed integer times a power
  of two, so rounding and comparison are integer arithmetic.
-/

namespace Rddl

/-- A binary64 number.  A finite one is `± mantissa · 2 ^ exponent`; `ofRatio`
    always picks the form with `mantissa < 2 ^ 53`, `-1074 ≤ exponent`, and
    `2 ^ 52 ≤ mantissa` unless `exponent = -1074`. -/
inductive Binary64 where
  | finite (negative : Bool) (mantissa : Nat) (exponent : Int)
  | infinite (negative : Bool)
  | undefined
deriving DecidableEq, Repr, Inhabited

namespace Binary64

def twoTo (n : Nat) : Nat := Nat.pow 2 n

def tenTo (n : Nat) : Nat := Nat.pow 10 n

/-! ### Rounding -/

/-- The integer nearest to `num / den`; a half goes to the even neighbour. -/
def nearest (num den : Nat) : Nat :=
  let floor := num / den
  let rest := num % den
  if 2 * rest < den || (2 * rest = den && floor % 2 = 0) then floor else floor + 1

/-- The fraction `num / den` divided by `2 ^ exponent`, as a numerator and a denominator. -/
def scaled (num den : Nat) (exponent : Int) : Nat × Nat :=
  if 0 ≤ exponent then (num, den * twoTo exponent.toNat) else (num * twoTo (-exponent).toNat, den)

/-- A rounded mantissa with its exponent, or infinity when the exponent is out of range. -/
def pack (negative : Bool) (mantissa : Nat) (exponent : Int) : Binary64 :=
  if exponent > 971 then .infinite negative else .finite negative mantissa exponent

/-- The binary64 number nearest to `± num / den`. -/
def ofRatio (negative : Bool) (num den : Nat) : Binary64 :=
  if num = 0 then .finite negative 0 (-1074)
  else
    let rough : Int := (Nat.log2 num : Int) - Nat.log2 den - 53
    let trial := scaled num den rough
    let exponent := max (if trial.1 / trial.2 < twoTo 53 then rough else rough + 1) (-1074)
    let exact := scaled num den exponent
    let mantissa := nearest exact.1 exact.2
    if mantissa < twoTo 53 then pack negative mantissa exponent
    else pack negative (twoTo 52) (exponent + 1)

/-- The binary64 number nearest to `± digits · 10 ^ exponent`. -/
def ofDecimal (negative : Bool) (digits : Nat) (exponent : Int) : Binary64 :=
  if 0 ≤ exponent then ofRatio negative (digits * tenTo exponent.toNat) 1
  else ofRatio negative digits (tenTo (-exponent).toNat)

def neg : Binary64 → Binary64
  | .finite negative mantissa exponent => .finite (!negative) mantissa exponent
  | .infinite negative => .infinite (!negative)
  | .undefined => .undefined

/-! ### Order -/

/-- A point of the extended number line: an integer times a power of two, or an infinity. -/
inductive Point where
  | value (coefficient exponent : Int)
  | infinity (negative : Bool)
deriving DecidableEq, Repr

def point? : Binary64 → Option Point
  | .finite negative mantissa exponent =>
    some (.value (if negative then -(mantissa : Int) else mantissa) exponent)
  | .infinite negative => some (.infinity negative)
  | .undefined => none

def Point.compare : Point → Point → Ordering
  | .infinity true, .infinity true => .eq
  | .infinity true, _ => .lt
  | _, .infinity true => .gt
  | .infinity false, .infinity false => .eq
  | .infinity false, _ => .gt
  | _, .infinity false => .lt
  | .value a e, .value b f =>
    let base := min e f
    let left := a * Int.ofNat (twoTo (e - base).toNat)
    let right := b * Int.ofNat (twoTo (f - base).toNat)
    compareOfLessAndEq left right

end Binary64

end Rddl
