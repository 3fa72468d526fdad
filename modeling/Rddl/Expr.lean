/-
  Rddl/Expr.lean
  ==============
  **Abstract syntax of expressions.**

  `Expr` has one constructor per form of expression, `Term` one per form of an
  argument of a fluent.  Brackets are kept as nodes of their own, so the tree
  tells where they stood.  `Expr.datum` is the same expression as an untyped tree.
-/
import Rddl.Lexeme

namespace Rddl

/-! ### Operators -/

inductive BinaryOp where
  | equivalent | implies | or | and | ampersand
  | equal | unequal | greater | greaterEq | less | lessEq
  | plus | minus | times | divide
deriving DecidableEq, Repr, Inhabited

namespace BinaryOp

def symbol : BinaryOp → Symbol
  | .equivalent => .equivalent
  | .implies => .implies
  | .or => .bar
  | .and => .caret
  | .ampersand => .ampersand
  | .equal => .equal
  | .unequal => .unequal
  | .greater => .greater
  | .greaterEq => .greaterEq
  | .less => .less
  | .lessEq => .lessEq
  | .plus => .plus
  | .minus => .minus
  | .times => .star
  | .divide => .slash

def ofSymbol? : Symbol → Option BinaryOp
  | .equivalent => some .equivalent
  | .implies => some .implies
  | .bar => some .or
  | .caret => some .and
  | .ampersand => some .ampersand
  | .equal => some .equal
  | .unequal => some .unequal
  | .greater => some .greater
  | .greaterEq => some .greaterEq
  | .less => some .less
  | .lessEq => some .lessEq
  | .plus => some .plus
  | .minus => some .minus
  | .star => some .times
  | .slash => some .divide
  | _ => none

def ofLexeme? : Lexeme → Option BinaryOp
  | .symbol mark => ofSymbol? mark
  | _ => none

/-- How tightly an operator binds; all operators associate to the left. -/
def level : BinaryOp → Nat
  | .equivalent => 1
  | .implies => 2
  | .or => 3
  | .and | .ampersand => 4
  | .equal | .unequal | .greater | .greaterEq | .less | .lessEq => 5
  | .plus | .minus => 6
  | .times | .divide => 7

def isArithmetic : BinaryOp → Bool
  | .plus | .minus | .times | .divide => true
  | _ => false

end BinaryOp

/-- A unary operator; all of them bind tighter than every binary one. -/
inductive UnaryOp where
  | not | minus | plus
deriving DecidableEq, Repr, Inhabited

namespace UnaryOp

def symbol : UnaryOp → Symbol
  | .not => .tilde
  | .minus => .minus
  | .plus => .plus

end UnaryOp

/-- The two kinds of brackets around a grouped expression. -/
inductive Bracket where
  | round | square
deriving DecidableEq, Repr, Inhabited

inductive Quantifier where
  | universal | existential
deriving DecidableEq, Repr, Inhabited

namespace Quantifier

def keyword : Quantifier → Keyword
  | .universal => .forallWord
  | .existential => .existsWord

end Quantifier

/-! ### Distributions -/

inductive UnaryDistribution where
  | bernoulli | diracDelta | kronDelta | exponential | poisson
deriving DecidableEq, Repr, Inhabited

namespace UnaryDistribution

def keyword : UnaryDistribution → Keyword
  | .bernoulli => .bernoulli
  | .diracDelta => .diracDelta
  | .kronDelta => .kronDelta
  | .exponential => .exponential
  | .poisson => .poisson

def ofKeyword? : Keyword → Option UnaryDistribution
  | .bernoulli => some .bernoulli
  | .diracDelta => some .diracDelta
  | .kronDelta => some .kronDelta
  | .exponential => some .exponential
  | .poisson => some .poisson
  | _ => none

end UnaryDistribution

inductive BinaryDistribution where
  | uniform | normal | weibull | gamma
deriving DecidableEq, Repr, Inhabited

namespace BinaryDistribution

def keyword : BinaryDistribution → Keyword
  | .uniform => .uniform
  | .normal => .normal
  | .weibull => .weibull
  | .gamma => .gamma

def ofKeyword? : Keyword → Option BinaryDistribution
  | .uniform => some .uniform
  | .normal => some .normal
  | .weibull => some .weibull
  | .gamma => some .gamma
  | _ => none

end BinaryDistribution

/-! ### Terms and occurrences -/

/-- An argument of a fluent. -/
inductive Term where
  | variable (name : String)
  | enumValue (name : String)
  | fluent (name : String)
  | applied (name : String) (args : List Term)
deriving Repr, Inhabited

/-- A fluent with its arguments, if an argument list is written at all. -/
structure Occurrence where
  name : String
  args : Option (List Term)
deriving Repr, Inhabited

structure TypedVar where
  name : String
  type : String
deriving DecidableEq, Repr, Inhabited

/-! ### Expressions -/

mutual

inductive Expr where
  | enumValue (name : String)
  | variable (name : String)
  | occurrence (fluent : Occurrence)
  | group (bracket : Bracket) (body : Expr)
  | call (function : String) (args : List Expr)
  | binary (op : BinaryOp) (left right : Expr)
  | unary (op : UnaryOp) (body : Expr)
  | truth (value : Bool)
  | integer (value : Nat)
  | real (value : Binary64)
  | quantified (quantifier : Quantifier) (vars : List TypedVar) (body : Expr)
  | aggregated (operator : String) (vars : List TypedVar) (body : Expr)
  | conditional (condition yes no : Expr)
  | switch (subject : Expr) (cases : List Case)
  | random (distribution : UnaryDistribution) (parameter : Expr)
  | randomPair (distribution : BinaryDistribution) (first second : Expr)
  | dirichlet (type : String) (parameter : Expr)
  | discrete (type : String) (outcomes : List Outcome)

inductive Case where
  | value (guard body : Expr)
  | default (body : Expr)

inductive Outcome where
  | weighted (label : String) (weight : Expr)
  | otherwise (label : String)

end

instance : Inhabited Expr := ⟨.truth false⟩

namespace Expr

/-- Whether a switch can be on an expression, or a case of it be one: an enumeration
    value, a fluent, a number or an arithmetic operation, not in brackets. -/
def isSubject : Expr → Bool
  | .enumValue _ | .occurrence _ | .integer _ | .real _ => true
  | .unary op _ => op != .not
  | .binary op _ _ => op.isArithmetic
  | _ => false

/-! ### Operator chains -/

/-- Add an operator and its right operand to the right end of an expression: they take
    from the right edge everything that does not bind less tightly. -/
def attach (op : BinaryOp) (operand : Expr) : Expr → Expr
  | .binary op' left right =>
    if op'.level < op.level then .binary op' left (attach op operand right)
    else .binary op (.binary op' left right) operand
  | e => .binary op e operand

/-- The expression that a chain of operands and operators stands for. -/
def assemble (first : Expr) (chain : List (BinaryOp × Expr)) : Expr :=
  chain.foldl (fun e link => attach link.1 link.2 e) first

end Expr

end Rddl
