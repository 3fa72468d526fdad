/-
  Rddl/Scan.lean
  ==============
  **From text to tokens.**

  At every place of the text the longest lexeme is taken.  Blanks, tabs, newlines
  and comments only separate; any other character that starts no lexeme is
  reported with its line and skipped.  Lines are counted from a given number on, so
  that the count can go on from one text to the next.  An integer literal with
  too many digits ends the scan.
-/
import Rddl.Lexeme

namespace Rddl

/-! ### Lexemes at the front of a text -/

namespace Lexeme

def isNameChar (c : Char) : Bool := c.isAlphanum || c = '-' || c = '_'

/-- The longest run of name characters at the front that ends in a letter or a digit. -/
def nameRun (cs : List Char) : List Char :=
  ((cs.takeWhile isNameChar).reverse.dropWhile fun c => !c.isAlphanum).reverse

/-- The identifier at the front: a letter, a run of name characters, perhaps a prime. -/
def identFront? : List Char → Option (List Char)
  | [] => none
  | c :: cs =>
    if c.isAlpha then
      let run := nameRun cs
      if (cs.drop run.length).head? = some '\'' then some (c :: run ++ ['\'']) else some (c :: run)
    else none

def markedFront? (mark : Char) : List Char → Option (List Char)
  | [] => none
  | c :: cs =>
    let run := nameRun cs
    if c = mark && !run.isEmpty then some (c :: run) else none

/-- The digits before and after the point of the decimal at the front. -/
def decimalFront? (cs : List Char) : Option (List Char × List Char) :=
  let whole := cs.takeWhile Char.isDigit
  match cs.drop whole.length with
  | '.' :: rest =>
    let fraction := rest.takeWhile Char.isDigit
    if fraction.isEmpty then none else some (whole, fraction)
  | _ => none

def integerFront? (cs : List Char) : Option (List Char) :=
  let digits := cs.takeWhile Char.isDigit
  if digits.isEmpty then none else some digits

def symbolFront? (cs : List Char) : Option Symbol :=
  Symbol.all.find? fun s => s.spelling.toList.isPrefixOf cs

def digitsValue (digits : List Char) : Nat :=
  digits.foldl (fun n c => 10 * n + (c.toNat - '0'.toNat)) 0

def ofName (cs : List Char) : Lexeme :=
  let name := String.ofList cs
  match Keyword.ofSpelling? name with
  | some word => .keyword word
  | none => .ident name

end Lexeme

inductive Front where
  | blank
  | newline
  | comment (length : Nat)
  | lexeme (value : Lexeme) (length : Nat)
  | overlong (digits : Nat)
  | illegal
deriving DecidableEq, Repr

namespace Front

open Lexeme in
/-- What stands at the front of a text that starts with the character `c`. -/
def of (c : Char) (cs : List Char) : Front :=
  if c = ' ' || c = '\t' then .blank
  else if c = '\n' then .newline
  else if c = '/' && cs.head? = some '/' then
    .comment ((c :: cs).takeWhile fun x => x ≠ '\r' && x ≠ '\n').length
  else if let some name := identFront? (c :: cs) then .lexeme (ofName name) name.length
  else if let some name := markedFront? '?' (c :: cs) then
    .lexeme (.variable (String.ofList name)) name.length
  else if let some name := markedFront? '@' (c :: cs) then
    .lexeme (.enumValue (String.ofList name)) name.length
  else if let some (whole, fraction) := decimalFront? (c :: cs) then
    .lexeme (.real (Binary64.ofDecimal false (digitsValue (whole ++ fraction)) (-fraction.length)))
      (whole.length + 1 + fraction.length)
  else if let some digits := integerFront? (c :: cs) then
    if digits.length ≤ digitLimit then .lexeme (.integer (digitsValue digits)) digits.length
    else .overlong digits.length
  else if let some s := symbolFront? (c :: cs) then .lexeme (.symbol s) s.spelling.length
  else .illegal

end Front

/-! ### Scans -/

/-- The outcome of scanning a text, piece by piece. -/
inductive Scan where
  | token (t : Token) (rest : Scan)
  | illegal (c : Char) (line : Nat) (rest : Scan)
  | overlong (digits line : Nat)
  | finished (line : Nat)
deriving Repr, Inhabited

namespace Scan

/-- Scan a text of which the first `skip` characters belong to a piece already taken. -/
def walk (skip line position : Nat) : List Char → Scan
  | [] => .finished line
  | c :: cs =>
    match skip with
    | skip + 1 => Scan.walk skip line (position + 1) cs
    | 0 =>
      match Front.of c cs with
      | .blank => Scan.walk 0 line (position + 1) cs
      | .newline => Scan.walk 0 (line + 1) (position + 1) cs
      | .comment length => Scan.walk (length - 1) line (position + 1) cs
      | .lexeme value length =>
        .token ⟨value, line, position⟩ (Scan.walk (length - 1) line (position + 1) cs)
      | .overlong digits => .overlong digits line
      | .illegal => .illegal c line (Scan.walk 0 line (position + 1) cs)

/-- Scan a text whose first line has the given number. -/
def ofText (line : Nat) (text : String) : Scan := Scan.walk 0 line 0 text.toList

def tokens : Scan → List Token
  | .token t rest => t :: rest.tokens
  | .illegal _ _ rest => rest.tokens
  | .overlong .. => []
  | .finished _ => []

def size (s : Scan) : Nat := s.tokens.length

/-- The illegal characters of a scan, each with its line. -/
def illegals : Scan → List (Char × Nat)
  | .token _ rest => rest.illegals
  | .illegal c line rest => (c, line) :: rest.illegals
  | .overlong .. => []
  | .finished _ => []

def lastLine : Scan → Nat
  | .token _ rest => rest.lastLine
  | .illegal _ _ rest => rest.lastLine
  | .overlong _ line => line
  | .finished line => line

/-- The fault that ends a scan before the end of its text. -/
def fault? : Scan → Option Fault
  | .token _ rest => rest.fault?
  | .illegal _ _ rest => rest.fault?
  | .overlong digits _ => some (.overlongInteger digits)
  | .finished _ => none

end Scan

end Rddl
