/-
  Rddl/Reader/Expr.lean
  =====================
  **Reading expressions.**

  An expression is a chain of operands with binary operators between them; the
  chain is read from left to right and then put together by how tightly the
  operators bind.  An operand with a body at its end, such as a quantified
  expression, takes everything that can still belong to the body.

  The readers come with a bound on their steps.  Between two steps that take a token
  there is at most one that takes none, so twice the number of tokens ahead is
  enough, and `expression` starts with that.
-/
import Rddl.Expr
import Rddl.Reader

namespace Rddl.Reader

/-! ### Terms -/

def termWithin : Nat → Reader Term
  | 0 => unexpected
  | n + 1 => do
    match ← peek with
    | some (.variable name) => do
      advance
      pure (.variable name)
    | some (.enumValue name) => do
      advance
      pure (.enumValue name)
    | some (.ident name) => do
      advance
      if ← acceptSymbol .leftParen then
        pure (.applied name (← looseList (termWithin n) .rightParen n))
      else pure (.fluent name)
    | _ => unexpected

/-- Read what follows the name of a fluent: its arguments, if there is an argument list. -/
def occurrenceTail (name : String) (n : Nat) : Reader Occurrence := do
  if ← acceptSymbol .leftParen then
    pure ⟨name, some (← looseList (termWithin n) .rightParen n)⟩
  else pure ⟨name, none⟩

/-! ### Parts of operands -/

def typedVar : Reader TypedVar := do
  let name ← variableName
  symbol .colon
  let type ← ident
  pure ⟨name, type⟩

/-- Read the variables of a quantifier or an aggregation, with the braces around them. -/
def typedVars (n : Nat) : Reader (List TypedVar) := do
  symbol .underscore
  symbol .leftCurly
  let vars ← commaList typedVar n
  symbol .rightCurly
  pure vars

def subject (expr : Reader Expr) : Reader Expr := do
  let e ← expr
  if e.isSubject then pure e else unexpected

/-- Read what follows an identifier that starts an operand. -/
def namedOperand (expr : Reader Expr) (name : String) (n : Nat) : Reader Expr := do
  match ← peek with
  | some (.symbol .leftBracket) => do
    advance
    let args ← commaList expr n
    symbol .rightBracket
    pure (.call name args)
  | some (.symbol .underscore) => do
    let vars ← typedVars n
    pure (.aggregated name vars (← expr))
  | _ => do pure (.occurrence (← occurrenceTail name n))

/-- Read what follows the keyword of a conditional. -/
def conditional (expr : Reader Expr) : Reader Expr := do
  symbol .leftParen
  let condition ← expr
  symbol .rightParen
  keyword .thenWord
  let yes ← expr
  keyword .elseWord
  let no ← expr
  pure (.conditional condition yes no)

def switchCase (expr : Reader Expr) : Reader Case := do
  match ← peek with
  | some (.keyword .caseWord) => do
    advance
    let guard ← subject expr
    symbol .colon
    let body ← expr
    pure (.value guard body)
  | some (.keyword .defaultWord) => do
    advance
    symbol .colon
    let body ← expr
    pure (.default body)
  | _ => unexpected

def switch (expr : Reader Expr) (n : Nat) : Reader Expr := do
  symbol .leftParen
  let on ← subject expr
  symbol .rightParen
  symbol .leftCurly
  let cases ← commaList (switchCase expr) n
  symbol .rightCurly
  pure (.switch on cases)

/-- Read the first outcome of a discrete distribution; only there may the weight be left
    to the other outcomes. -/
def firstOutcome (expr : Reader Expr) : Reader Outcome := do
  let name ← label
  symbol .colon
  if ← accept (.keyword .otherwise) then pure (.otherwise name)
  else do pure (.weighted name (← expr))

def outcome (expr : Reader Expr) : Reader Outcome := do
  let name ← label
  symbol .colon
  pure (.weighted name (← expr))

def discrete (expr : Reader Expr) (n : Nat) : Reader Expr := do
  symbol .leftParen
  let type ← ident
  symbol .comma
  let first ← firstOutcome expr
  let rest ← commaTail (outcome expr) n
  symbol .rightParen
  pure (.discrete type (first :: rest))

def dirichlet (expr : Reader Expr) : Reader Expr := do
  symbol .leftParen
  let type ← ident
  symbol .comma
  let parameter ← expr
  symbol .rightParen
  pure (.dirichlet type parameter)

def random (expr : Reader Expr) (distribution : UnaryDistribution) : Reader Expr := do
  symbol .leftParen
  let parameter ← expr
  symbol .rightParen
  pure (.random distribution parameter)

def randomPair (expr : Reader Expr) (distribution : BinaryDistribution) : Reader Expr := do
  symbol .leftParen
  let first ← expr
  symbol .comma
  let second ← expr
  symbol .rightParen
  pure (.randomPair distribution first second)

/-- Read what follows a keyword that starts an operand. -/
def keywordOperand (expr : Reader Expr) (n : Nat) (word : Keyword) : Option (Reader Expr) :=
  match word with
  | .trueWord => some (pure (.truth true))
  | .falseWord => some (pure (.truth false))
  | .forallWord => some do
    let vars ← typedVars n
    pure (.quantified .universal vars (← expr))
  | .existsWord => some do
    let vars ← typedVars n
    pure (.quantified .existential vars (← expr))
  | .ifWord => some (conditional expr)
  | .switch => some (switch expr n)
  | .discrete => some (discrete expr n)
  | .dirichlet => some (dirichlet expr)
  | word =>
    match UnaryDistribution.ofKeyword? word, BinaryDistribution.ofKeyword? word with
    | some distribution, _ => some (random expr distribution)
    | none, some distribution => some (randomPair expr distribution)
    | none, none => none

/-! ### Expressions -/

mutual

def exprWithin : Nat → Reader Expr
  | 0 => unexpected
  | n + 1 => do
    let first ← operandWithin n
    let chain ← chainWithin n
    pure (Expr.assemble first chain)

/-- Read the rest of a chain: operators, each with its right operand. -/
def chainWithin : Nat → Reader (List (BinaryOp × Expr))
  | 0 => unexpected
  | n + 1 => do
    match (← peek).bind BinaryOp.ofLexeme? with
    | none => pure []
    | some op => do
      advance
      let operand ← operandWithin n
      let rest ← chainWithin n
      pure ((op, operand) :: rest)

def operandWithin : Nat → Reader Expr
  | 0 => unexpected
  | n + 1 => do
    match ← peek with
    | some (.enumValue name) => do
      advance
      pure (.enumValue name)
    | some (.variable name) => do
      advance
      pure (.variable name)
    | some (.integer value) => do
      advance
      pure (.integer value)
    | some (.real value) => do
      advance
      pure (.real value)
    | some (.ident name) => do
      advance
      namedOperand (exprWithin n) name n
    | some (.symbol .leftParen) => do
      advance
      let body ← exprWithin n
      symbol .rightParen
      pure (.group .round body)
    | some (.symbol .leftBracket) => do
      advance
      let body ← exprWithin n
      symbol .rightBracket
      pure (.group .square body)
    | some (.symbol .tilde) => do
      advance
      pure (.unary .not (← operandWithin n))
    | some (.symbol .minus) => do
      advance
      pure (.unary .minus (← operandWithin n))
    | some (.symbol .plus) => do
      advance
      pure (.unary .plus (← operandWithin n))
    | some (.keyword word) =>
      match keywordOperand (exprWithin n) n word with
      | some body => do
        advance
        body
      | none => unexpected
    | _ => unexpected

end

def expression : Reader Expr := do exprWithin (← bound)

def occurrence : Reader Occurrence := do
  let n ← bound
  let name ← ident
  occurrenceTail name n

end Rddl.Reader
