/-
  Rddl/Binary64/Shortest.lean
  ===========================
  **The text of a number with a decimal point.**

  A number is written with the fewest digits that read back as the same number;
  of two such decimals the nearer one is taken, and an exact tie goes to the even
  digit.  Numbers from 10⁻⁴ up to 10¹⁶ are written positionally, others with an
  exponent.
-/
import Rddl.Binary64

namespace Rddl.Binary64

/-! ### Fewest digits -/

/-- The decimals that read back as `mantissa · 2 ^ exponent`: a fraction is one
    of them when it lies between `low / den` and `high / den`, ends included iff
    the mantissa is even.  `mid / den` is the number itself. -/
structure Interval where
  low : Nat
  mid : Nat
  high : Nat
  den : Nat
  closed : Bool
deriving Repr

/-- The interval of reals that round to `mantissa · 2 ^ exponent`.  Below a power
    of two the neighbour is only half as far. -/
def interval (mantissa : Nat) (exponent : Int) : Interval :=
  let below := if mantissa = twoTo 52 && exponent > -1074 then 1 else 2
  let unit := scaled 1 1 (2 - exponent)
  { low := (4 * mantissa - below) * unit.1
    mid := 4 * mantissa * unit.1
    high := (4 * mantissa + 2) * unit.1
    den := unit.2
    closed := mantissa % 2 = 0 }

def digitCount (n : Nat) : Nat := (Nat.toDigits 10 n).length

/-- The `p` with `10 ^ (p - 1) ≤ num / den < 10 ^ p`. -/
def magnitude (num den : Nat) : Int :=
  if den ≤ num then digitCount (num / den) else 1 - digitCount ((den - 1) / num)

/-- The factors by which `d · 10 ^ k` and `n / den` are brought to one denominator. -/
def grid (k : Int) : Nat × Nat :=
  if 0 ≤ k then (tenTo k.toNat, 1) else (1, tenTo (-k).toNat)

def Interval.holds (i : Interval) (digits : Nat) (k : Int) : Bool :=
  let point := digits * (grid k).1 * i.den
  let low := i.low * (grid k).2
  let high := i.high * (grid k).2
  if i.closed then low ≤ point && point ≤ high else low < point && point < high

/-- The better of the two neighbours of the number among the multiples of `10 ^ k`
    that lie in the interval. -/
def Interval.best? (i : Interval) (k : Int) : Option Nat :=
  let target := i.mid * (grid k).2
  let step := (grid k).1 * i.den
  let down := target / step
  match i.holds down k, i.holds (down + 1) k with
  | true, true => some (nearest target step)
  | true, false => some down
  | false, true => some (down + 1)
  | false, false => none

/-- The fewest digits for `mantissa · 2 ^ exponent`, with the power of ten that
    their last place stands for. -/
def shortest (mantissa : Nat) (exponent : Int) : Nat × Int :=
  let i := interval mantissa exponent
  let size := magnitude i.mid i.den
  let hit := (List.range 17).findSome? fun n =>
    let k := size - (n + 1 : Nat)
    (i.best? k).map fun digits => (digits, k)
  hit.getD (0, 0)

/-! ### Layout -/

def stripZeros (digits : List Char) : List Char :=
  (digits.reverse.dropWhile (· = '0')).reverse

/-- The text of an exponent: its sign and at least two digits. -/
def exponentText (e : Int) : List Char :=
  let digits := Nat.toDigits 10 e.natAbs
  (if e < 0 then '-' else '+') :: List.replicate (2 - digits.length) '0' ++ digits

/-- Digits with the decimal point after the first `point` of them. -/
def layout (digits : List Char) (point : Int) : List Char :=
  if -4 < point && point ≤ 16 then
    if point ≤ 0 then '0' :: '.' :: List.replicate (-point).toNat '0' ++ digits
    else
      let place := point.toNat
      if digits.length ≤ place then
        digits ++ List.replicate (place - digits.length) '0' ++ ['.', '0']
      else digits.take place ++ '.' :: digits.drop place
  else
    let fraction := if digits.length ≤ 1 then [] else '.' :: digits.drop 1
    digits.take 1 ++ fraction ++ 'e' :: exponentText (point - 1)

def text : Binary64 → String
  | .undefined => "nan"
  | .infinite negative => if negative then "-inf" else "inf"
  | .finite negative mantissa exponent =>
    let body :=
      if mantissa = 0 then ['0', '.', '0']
      else
        let short := shortest mantissa exponent
        let digits := Nat.toDigits 10 short.1
        layout (stripZeros digits) (digits.length + short.2)
    String.ofList (if negative then '-' :: body else body)

end Rddl.Binary64
