/-
  Rddl/Proofs/Grammar.lean
  ========================
  **The grammar of documents and its trees.**

  The grammar has one nonterminal for each kind of phrase and a list of bodies for each
  nonterminal (`bodies`, `grammar`).  A derivation tree applies a rule at each node and
  has a token at each leaf; its yield are the tokens from left to right, and its types
  are a word of the grammar (`ParseTree.types_mem_language`).
-/
import Mathlib.Computability.ContextFreeGrammar
import Rddl.PVariable
import Rddl.Lexeme

/-- A symbol of a grammar: a terminal or a nonterminal. -/
abbrev GrammarSymbol (T N : Type) := Symbol T N

namespace Rddl

/-! ### Symbols of the grammar -/

/-- The type of a token, without its value. -/
inductive Terminal where
  | ident | variable | enumValue | real | integer
  | keyword (word : Keyword)
  | symbol (mark : Symbol)
deriving DecidableEq, Repr

def Lexeme.terminal : Lexeme → Terminal
  | .ident _ => .ident
  | .variable _ => .variable
  | .enumValue _ => .enumValue
  | .real _ => .real
  | .integer _ => .integer
  | .keyword word => .keyword word
  | .symbol mark => .symbol mark

/-- The sections of conditions that a domain may have. -/
inductive Conditions where
  | preconditions | constraints | invariants
deriving DecidableEq, Repr

namespace Conditions

def keyword : Conditions → Keyword
  | .preconditions => .actionPreconditions
  | .constraints => .stateActionConstraints
  | .invariants => .stateInvariants

def key : Conditions → String
  | .preconditions => "preconds"
  | .constraints => "constraints"
  | .invariants => "invariants"

end Conditions

inductive Nonterminal where
  | rddl | rddlBlock | domainBlock | reqSection | domainList
  | typeSection | typeList | typeDef | enumList
  | pvarSection | pvarList | pvarDef | fluentDef (kind : FluentKind)
  | cpfSection | cpfHeader | cpfList | cpfDef | rewardSection
  | conditionSection (which : Conditions) | conditionList (which : Conditions)
  | conditionDef (which : Conditions)
  | termList | term | expr | penumExpr | paramExpr | pvarExpr | groupExpr | functionExpr
  | relationalExpr | booleanExpr | quantifierExpr | numericalExpr | aggregationExpr | caseExpr
  | controlExpr | randomvarExpr | typedVarList | typedVar | exprList | caseList | caseDef
  | lconstCaseList | lconst | paramList | typeSpec | rangeConst | boolType | doubleType | intType
  | posIntOrPosInf
  | instanceBlock | instanceList | domainSection | nonfluentsSection | objectsSection
  | initStateSection | maxNondefActionsSection | horizonSpecSection | discountSection
  | nonfluentBlock | nonfluentList | initNonFluentSection
  | objectsList | objectsDef | objectConstList | pvarInstList | pvarInstDef | lconstList
  | stringList | empty
deriving DecidableEq, Repr

abbrev BodySymbol := GrammarSymbol Terminal Nonterminal

namespace BodySymbol

def ident : BodySymbol := .terminal .ident

def word (w : Keyword) : BodySymbol := .terminal (.keyword w)

def mark (m : Symbol) : BodySymbol := .terminal (.symbol m)

end BodySymbol

/-! ### Rules -/

namespace Nonterminal

open BodySymbol

def part (n : Nonterminal) : BodySymbol := .nonterminal n

/-- Phrases one after another, perhaps none. -/
def manyOf (list item : Nonterminal) : List (List BodySymbol) :=
  [[list.part, item.part], [empty.part]]

/-- Phrases one after another, at least one. -/
def someOf (list item : Nonterminal) : List (List BodySymbol) :=
  [[list.part, item.part], [item.part]]

/-- Symbols with commas between them, at least one. -/
def commaSomeOf (list : Nonterminal) (item : BodySymbol) : List (List BodySymbol) :=
  [[list.part, mark .comma, item], [item]]

/-- Symbols with commas between them, perhaps none. -/
def commaManyOf (list : Nonterminal) (item : BodySymbol) : List (List BodySymbol) :=
  commaSomeOf list item ++ [[empty.part]]

/-- One of several sections after those before it, or none. -/
def sectionsOf (list : Nonterminal) (sections : List Nonterminal) : List (List BodySymbol) :=
  sections.map (fun s => [list.part, s.part]) ++ [[empty.part]]

def bracedPart (n : Nonterminal) : List BodySymbol :=
  [mark .leftCurly, n.part, mark .rightCurly, mark .semicolon]

/-- The declaration of a fluent, with and without parameters. -/
def fluentBodies (kind : Keyword) (value : List BodySymbol) : List (List BodySymbol) :=
  let rest := [mark .colon, mark .leftCurly, word kind, mark .comma, typeSpec.part] ++ value ++
    [mark .rightCurly, mark .semicolon]
  [[ident, mark .leftParen, paramList.part, mark .rightParen] ++ rest, ident :: rest]

def fluentValue (name : Keyword) : List BodySymbol :=
  [mark .comma, word name, mark .assign, rangeConst.part]

def infixBody (operator : Symbol) : List BodySymbol := [expr.part, mark operator, expr.part]

/-- Variables in braces and the expression that they are for. -/
def scopedBody (head : BodySymbol) : List BodySymbol :=
  [head, mark .underscore, mark .leftCurly, typedVarList.part, mark .rightCurly, expr.part]

def randomBody (distribution : Keyword) : List BodySymbol :=
  [word distribution, mark .leftParen, expr.part, mark .rightParen]

def randomPairBody (distribution : Keyword) : List BodySymbol :=
  [word distribution, mark .leftParen, expr.part, mark .comma, expr.part, mark .rightParen]

/-- A name assigned to a keyword. -/
def assignedBody (name : Keyword) (value : BodySymbol) : List BodySymbol :=
  [word name, mark .assign, value, mark .semicolon]

def bodies : Nonterminal → List (List BodySymbol)
  | rddl => [[rddlBlock.part]]
  | rddlBlock => sectionsOf rddlBlock [domainBlock, instanceBlock, nonfluentBlock]
  | domainBlock =>
    [[word .domain, ident, mark .leftCurly, reqSection.part, domainList.part, mark .rightCurly]]
  | reqSection =>
    [word .requirements :: mark .assign :: bracedPart stringList,
      word .requirements :: bracedPart stringList, [empty.part]]
  | domainList =>
    sectionsOf domainList [typeSection, pvarSection, cpfSection, rewardSection,
      conditionSection .preconditions, conditionSection .constraints, conditionSection .invariants]
  | typeSection => [word .types :: bracedPart typeList]
  | typeList => manyOf typeList typeDef
  | typeDef =>
    [[ident, mark .colon, word .objectWord, mark .semicolon],
      ident :: mark .colon :: bracedPart enumList]
  | enumList => commaManyOf enumList (.terminal .enumValue)
  | pvarSection => [word .pvariables :: bracedPart pvarList]
  | pvarList => manyOf pvarList pvarDef
  | pvarDef =>
    [[(fluentDef .nonFluent).part], [(fluentDef .state).part], [(fluentDef .action).part],
      [(fluentDef .intermediate).part], [(fluentDef .observation).part]]
  | fluentDef .nonFluent => fluentBodies .nonFluent (fluentValue .defaultWord)
  | fluentDef .state => fluentBodies .stateFluent (fluentValue .defaultWord)
  | fluentDef .action => fluentBodies .actionFluent (fluentValue .defaultWord)
  | fluentDef .intermediate => fluentBodies .intermFluent (fluentValue .level)
  | fluentDef .observation => fluentBodies .observFluent []
  | cpfSection => [cpfHeader.part :: bracedPart cpfList]
  | cpfHeader => [[word .cpfs], [word .cdfs]]
  | cpfList => manyOf cpfList cpfDef
  | cpfDef => [[pvarExpr.part, mark .assign, expr.part, mark .semicolon]]
  | rewardSection => [assignedBody .reward expr.part]
  | conditionSection which =>
    [word which.keyword :: bracedPart (conditionList which),
      [word which.keyword, mark .leftCurly, mark .rightCurly, mark .semicolon]]
  | conditionList which => someOf (conditionList which) (conditionDef which)
  | conditionDef _ => [[expr.part, mark .semicolon]]
  | termList => commaManyOf termList term.part
  | term => [[.terminal .variable], [.terminal .enumValue], [pvarExpr.part]]
  | expr =>
    [[penumExpr.part], [paramExpr.part], [pvarExpr.part], [groupExpr.part], [functionExpr.part],
      [relationalExpr.part], [booleanExpr.part], [quantifierExpr.part], [numericalExpr.part],
      [aggregationExpr.part], [controlExpr.part], [randomvarExpr.part]]
  | penumExpr => [[.terminal .enumValue]]
  | paramExpr => [[.terminal .variable]]
  | pvarExpr => [[ident, mark .leftParen, termList.part, mark .rightParen], [ident]]
  | groupExpr =>
    [[mark .leftBracket, expr.part, mark .rightBracket],
      [mark .leftParen, expr.part, mark .rightParen]]
  | functionExpr => [[ident, mark .leftBracket, exprList.part, mark .rightBracket]]
  | relationalExpr =>
    [infixBody .equal, infixBody .unequal, infixBody .greater, infixBody .greaterEq,
      infixBody .less, infixBody .lessEq]
  | booleanExpr =>
    [infixBody .caret, infixBody .ampersand, infixBody .bar, infixBody .implies,
      infixBody .equivalent, [mark .tilde, expr.part], [boolType.part]]
  | quantifierExpr => [scopedBody (word .forallWord), scopedBody (word .existsWord)]
  | numericalExpr =>
    [infixBody .plus, infixBody .minus, infixBody .star, infixBody .slash,
      [mark .minus, expr.part], [mark .plus, expr.part], [.terminal .integer], [.terminal .real]]
  | aggregationExpr => [scopedBody ident]
  | caseExpr => [[penumExpr.part], [pvarExpr.part], [numericalExpr.part]]
  | controlExpr =>
    [[word .ifWord, mark .leftParen, expr.part, mark .rightParen, word .thenWord, expr.part,
        word .elseWord, expr.part],
      [word .switch, mark .leftParen, caseExpr.part, mark .rightParen, mark .leftCurly,
        caseList.part, mark .rightCurly]]
  | randomvarExpr =>
    [randomBody .bernoulli, randomBody .diracDelta, randomBody .kronDelta,
      randomPairBody .uniform, randomPairBody .normal, randomBody .exponential,
      [word .discrete, mark .leftParen, ident, mark .comma, lconstCaseList.part,
        mark .rightParen],
      [word .dirichlet, mark .leftParen, ident, mark .comma, expr.part, mark .rightParen],
      randomBody .poisson, randomPairBody .weibull, randomPairBody .gamma]
  | typedVarList => commaSomeOf typedVarList typedVar.part
  | typedVar => [[.terminal .variable, mark .colon, ident]]
  | exprList => commaSomeOf exprList expr.part
  | caseList => commaSomeOf caseList caseDef.part
  | caseDef =>
    [[word .caseWord, caseExpr.part, mark .colon, expr.part],
      [word .defaultWord, mark .colon, expr.part]]
  | lconstCaseList =>
    [[lconst.part, mark .colon, expr.part], [lconst.part, mark .colon, word .otherwise],
      [lconstCaseList.part, mark .comma, lconst.part, mark .colon, expr.part]]
  | lconst => [[ident], [.terminal .enumValue]]
  | paramList => [[stringList.part]]
  | typeSpec => [[ident], [word .intWord], [word .realWord], [word .boolWord]]
  | rangeConst =>
    [[boolType.part], [doubleType.part], [intType.part], [penumExpr.part], [ident]]
  | boolType => [[word .trueWord], [word .falseWord]]
  | doubleType =>
    [[.terminal .real], [mark .minus, .terminal .real], [word .posInf], [word .negInf]]
  | intType => [[.terminal .integer], [mark .minus, .terminal .integer]]
  | posIntOrPosInf => [[.terminal .integer], [word .posInf]]
  | instanceBlock =>
    [[word .instanceWord, ident, mark .leftCurly, instanceList.part, mark .rightCurly]]
  | instanceList =>
    sectionsOf instanceList [domainSection, nonfluentsSection, objectsSection, initStateSection,
      maxNondefActionsSection, horizonSpecSection, discountSection]
  | domainSection => [assignedBody .domain ident]
  | nonfluentsSection => [assignedBody .nonFluents ident]
  | objectsSection => [word .objects :: bracedPart objectsList]
  | initStateSection => [word .initState :: bracedPart pvarInstList]
  | maxNondefActionsSection => [assignedBody .maxNondefActions posIntOrPosInf.part]
  | horizonSpecSection =>
    [assignedBody .horizon posIntOrPosInf.part,
      [word .horizon, mark .assign, word .terminateWhen, mark .leftParen, expr.part,
        mark .rightParen]]
  | discountSection => [assignedBody .discount (.terminal .real)]
  | nonfluentBlock =>
    [[word .nonFluents, ident, mark .leftCurly, nonfluentList.part, mark .rightCurly]]
  | nonfluentList =>
    sectionsOf nonfluentList [domainSection, objectsSection, initNonFluentSection]
  | initNonFluentSection => [word .nonFluents :: bracedPart pvarInstList]
  | objectsList => someOf objectsList objectsDef ++ [[empty.part]]
  | objectsDef => [ident :: mark .colon :: bracedPart objectConstList]
  | objectConstList => commaSomeOf objectConstList ident
  | pvarInstList => someOf pvarInstList pvarInstDef
  | pvarInstDef =>
    [[ident, mark .leftParen, lconstList.part, mark .rightParen, mark .semicolon],
      [ident, mark .semicolon],
      [mark .tilde, ident, mark .leftParen, lconstList.part, mark .rightParen, mark .semicolon],
      [mark .tilde, ident, mark .semicolon],
      [ident, mark .leftParen, lconstList.part, mark .rightParen, mark .assign, rangeConst.part,
        mark .semicolon],
      [ident, mark .assign, rangeConst.part, mark .semicolon]]
  | lconstList => commaSomeOf lconstList lconst.part
  | stringList => commaManyOf stringList ident
  | empty => [[]]

def all : List Nonterminal :=
  [rddl, rddlBlock, domainBlock, reqSection, domainList, typeSection, typeList, typeDef, enumList,
    pvarSection, pvarList, pvarDef, fluentDef .nonFluent, fluentDef .state, fluentDef .action,
    fluentDef .intermediate, fluentDef .observation, cpfSection, cpfHeader, cpfList, cpfDef,
    rewardSection, conditionSection .preconditions, conditionSection .constraints,
    conditionSection .invariants, conditionList .preconditions, conditionList .constraints,
    conditionList .invariants, conditionDef .preconditions, conditionDef .constraints,
    conditionDef .invariants, termList, term, expr, penumExpr, paramExpr, pvarExpr, groupExpr,
    functionExpr, relationalExpr, booleanExpr, quantifierExpr, numericalExpr, aggregationExpr,
    caseExpr, controlExpr, randomvarExpr, typedVarList, typedVar, exprList, caseList, caseDef,
    lconstCaseList, lconst, paramList, typeSpec, rangeConst, boolType, doubleType, intType,
    posIntOrPosInf, instanceBlock, instanceList, domainSection, nonfluentsSection, objectsSection,
    initStateSection, maxNondefActionsSection, horizonSpecSection, discountSection,
    nonfluentBlock, nonfluentList, initNonFluentSection, objectsList, objectsDef,
    objectConstList, pvarInstList, pvarInstDef, lconstList, stringList, empty]

theorem mem_all (n : Nonterminal) : n ∈ all := by
  cases n with
  | fluentDef kind => cases kind <;> decide
  | conditionSection which => cases which <;> decide
  | conditionList which => cases which <;> decide
  | conditionDef which => cases which <;> decide
  | _ => decide

end Nonterminal

def grammarRules : List (ContextFreeRule Terminal Nonterminal) :=
  Nonterminal.all.flatMap fun n => n.bodies.map fun body => ⟨n, body⟩

example : grammarRules.length = 207 := by decide +kernel

def grammar : ContextFreeGrammar Terminal where
  NT := Nonterminal
  initial := .rddl
  rules := grammarRules.toFinset

theorem mem_grammar_rules {n : Nonterminal} {body : List BodySymbol} (h : body ∈ n.bodies) :
    (⟨n, body⟩ : ContextFreeRule Terminal Nonterminal) ∈ grammar.rules := by
  refine List.mem_toFinset.mpr ?_
  exact List.mem_flatMap.mpr ⟨n, n.mem_all, List.mem_map_of_mem h⟩

/-! ### Derivation trees -/

/-- A tree with tokens at its leaves and phrases at its inner nodes. -/
inductive ParseTree where
  | leaf (token : Lexeme)
  | node (phrase : Nonterminal) (children : List ParseTree)

namespace ParseTree

def root : ParseTree → BodySymbol
  | leaf token => .terminal token.terminal
  | node phrase _ => .nonterminal phrase

mutual

/-- The tokens of a tree, from left to right. -/
def yield : ParseTree → List Lexeme
  | leaf token => [token]
  | node _ children => yields children

def yields : List ParseTree → List Lexeme
  | [] => []
  | t :: ts => t.yield ++ yields ts

end

/-- A tree applies a rule of the grammar at each of its inner nodes. -/
inductive Applies : ParseTree → Prop
  | leaf (token : Lexeme) : Applies (.leaf token)
  | node {phrase : Nonterminal} {children : List ParseTree}
      (rule : children.map root ∈ phrase.bodies) (parts : ∀ t ∈ children, Applies t) :
      Applies (.node phrase children)

/-- Trees that derive their yields from their roots do so side by side. -/
theorem derives_yields {ts : List ParseTree}
    (h : ∀ t ∈ ts, grammar.Derives [t.root] (t.yield.map fun l => .terminal l.terminal)) :
    grammar.Derives (ts.map root) ((yields ts).map fun l => .terminal l.terminal) := by
  induction ts with
  | nil => exact Relation.ReflTransGen.refl
  | cons t ts ih =>
    have hfirst := (h t (by simp)).append_right (ts.map root)
    have hrest := (ih fun t' ht' => h t' (by simp [ht'])).append_left
      (t.yield.map fun l => .terminal l.terminal)
    rw [yields, List.map_append]
    exact hfirst.trans hrest

/-- A tree of the grammar derives its yield from its root. -/
theorem Applies.derives {t : ParseTree} (h : t.Applies) :
    grammar.Derives [t.root] (t.yield.map fun l => .terminal l.terminal) := by
  induction h with
  | leaf token => exact Relation.ReflTransGen.refl
  | node rule _ ih =>
    refine ContextFreeGrammar.Derives.trans (ContextFreeGrammar.Produces.single ?_)
      (derives_yields ih)
    exact ⟨_, mem_grammar_rules rule, ContextFreeRule.Rewrites.input_output⟩

/-- **The types of the tokens of a whole tree are a word of the grammar.** -/
theorem types_mem_language {t : ParseTree} (h : t.Applies) (hroot : t.root = .nonterminal .rddl) :
    t.yield.map Lexeme.terminal ∈ grammar.language := by
  have hderives := h.derives
  rw [hroot] at hderives
  rw [ContextFreeGrammar.mem_language_iff, List.map_map]
  exact hderives

end ParseTree

end Rddl
