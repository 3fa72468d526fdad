/-
  Rddl/Lexeme.lean
  ================
  **The words of the language.**

  A lexeme is an identifier, a variable, an enumeration value, a number, a keyword
  or a symbol.  A token is a lexeme with its place in the text.
-/
import Rddl.Datum
import Rddl.Binary64.Shortest
import Rddl.Text.Quoted

namespace Rddl

/-! ### Keywords -/

inductive Keyword where
  | domain | instanceWord | horizon | discount | objects | initState | requirements
  | stateActionConstraints | actionPreconditions | stateInvariants | types | objectWord
  | boolWord | intWord | realWord | negInf | posInf | pvariables | nonFluent | nonFluents
  | stateFluent | intermFluent | derivedFluent | observFluent | actionFluent | level
  | defaultWord | maxNondefActions | terminateWhen | terminal | cpfs | cdfs | reward
  | forallWord | existsWord | trueWord | falseWord | ifWord | thenWord | elseWord | switch
  | caseWord | otherwise | kronDelta | diracDelta | uniform | bernoulli | discrete | normal
  | poisson | exponential | weibull | gamma | multinomial | dirichlet
deriving DecidableEq, Repr, Inhabited

namespace Keyword

def all : List Keyword :=
  [.domain, .instanceWord, .horizon, .discount, .objects, .initState, .requirements,
   .stateActionConstraints, .actionPreconditions, .stateInvariants, .types, .objectWord,
   .boolWord, .intWord, .realWord, .negInf, .posInf, .pvariables, .nonFluent, .nonFluents,
   .stateFluent, .intermFluent, .derivedFluent, .observFluent, .actionFluent, .level,
   .defaultWord, .maxNondefActions, .terminateWhen, .terminal, .cpfs, .cdfs, .reward,
   .forallWord, .existsWord, .trueWord, .falseWord, .ifWord, .thenWord, .elseWord, .switch,
   .caseWord, .otherwise, .kronDelta, .diracDelta, .uniform, .bernoulli, .discrete, .normal,
   .poisson, .exponential, .weibull, .gamma, .multinomial, .dirichlet]

def spelling : Keyword → String
  | .domain => "domain"
  | .instanceWord => "instance"
  | .horizon => "horizon"
  | .discount => "discount"
  | .objects => "objects"
  | .initState => "init-state"
  | .requirements => "requirements"
  | .stateActionConstraints => "state-action-constraints"
  | .actionPreconditions => "action-preconditions"
  | .stateInvariants => "state-invariants"
  | .types => "types"
  | .objectWord => "object"
  | .boolWord => "bool"
  | .intWord => "int"
  | .realWord => "real"
  | .negInf => "neg-inf"
  | .posInf => "pos-inf"
  | .pvariables => "pvariables"
  | .nonFluent => "non-fluent"
  | .nonFluents => "non-fluents"
  | .stateFluent => "state-fluent"
  | .intermFluent => "interm-fluent"
  | .derivedFluent => "derived-fluent"
  | .observFluent => "observ-fluent"
  | .actionFluent => "action-fluent"
  | .level => "level"
  | .defaultWord => "default"
  | .maxNondefActions => "max-nondef-actions"
  | .terminateWhen => "terminate-when"
  | .terminal => "terminal"
  | .cpfs => "cpfs"
  | .cdfs => "cdfs"
  | .reward => "reward"
  | .forallWord => "forall"
  | .existsWord => "exists"
  | .trueWord => "true"
  | .falseWord => "false"
  | .ifWord => "if"
  | .thenWord => "then"
  | .elseWord => "else"
  | .switch => "switch"
  | .caseWord => "case"
  | .otherwise => "otherwise"
  | .kronDelta => "KronDelta"
  | .diracDelta => "DiracDelta"
  | .uniform => "Uniform"
  | .bernoulli => "Bernoulli"
  | .discrete => "Discrete"
  | .normal => "Normal"
  | .poisson => "Poisson"
  | .exponential => "Exponential"
  | .weibull => "Weibull"
  | .gamma => "Gamma"
  | .multinomial => "Multinomial"
  | .dirichlet => "Dirichlet"

/-- The class of a keyword, as messages and token listings name it. -/
def className : Keyword → String
  | .domain => "DOMAIN"
  | .instanceWord => "INSTANCE"
  | .horizon => "HORIZON"
  | .discount => "DISCOUNT"
  | .objects => "OBJECTS"
  | .initState => "INIT_STATE"
  | .requirements => "REQUIREMENTS"
  | .stateActionConstraints => "STATE_ACTION_CONSTRAINTS"
  | .actionPreconditions => "ACTION_PRECONDITIONS"
  | .stateInvariants => "STATE_INVARIANTS"
  | .types => "TYPES"
  | .objectWord => "OBJECT"
  | .boolWord => "BOOL"
  | .intWord => "INT"
  | .realWord => "REAL"
  | .negInf => "NEG_INF"
  | .posInf => "POS_INF"
  | .pvariables => "PVARIABLES"
  | .nonFluent => "NON_FLUENT"
  | .nonFluents => "NON_FLUENTS"
  | .stateFluent => "STATE"
  | .intermFluent => "INTERMEDIATE"
  | .derivedFluent => "DERIVED_FLUENT"
  | .observFluent => "OBSERVATION"
  | .actionFluent => "ACTION"
  | .level => "LEVEL"
  | .defaultWord => "DEFAULT"
  | .maxNondefActions => "MAX_NONDEF_ACTIONS"
  | .terminateWhen => "TERMINATE_WHEN"
  | .terminal => "TERMINAL"
  | .cpfs => "CPFS"
  | .cdfs => "CDFS"
  | .reward => "REWARD"
  | .forallWord => "FORALL"
  | .existsWord => "EXISTS"
  | .trueWord => "TRUE"
  | .falseWord => "FALSE"
  | .ifWord => "IF"
  | .thenWord => "THEN"
  | .elseWord => "ELSE"
  | .switch => "SWITCH"
  | .caseWord => "CASE"
  | .otherwise => "OTHERWISE"
  | .kronDelta => "KRON_DELTA"
  | .diracDelta => "DIRAC_DELTA"
  | .uniform => "UNIFORM"
  | .bernoulli => "BERNOULLI"
  | .discrete => "DISCRETE"
  | .normal => "NORMAL"
  | .poisson => "POISSON"
  | .exponential => "EXPONENTIAL"
  | .weibull => "WEIBULL"
  | .gamma => "GAMMA"
  | .multinomial => "MULTINOMIAL"
  | .dirichlet => "DIRICHLET"

end Keyword

namespace Keyword

def ofSpelling? (s : String) : Option Keyword := all.find? fun k => k.spelling == s

end Keyword

/-! ### Symbols -/

inductive Symbol where
  | caret | bar | tilde | plus | star | leftParen | rightParen | leftCurly | rightCurly | dot
  | comma | underscore | leftBracket | rightBracket | implies | equivalent | unequal | lessEq
  | less | greaterEq | greater | assign | equal | slash | minus | colon | semicolon | dollar
  | question | ampersand
deriving DecidableEq, Repr, Inhabited

namespace Symbol

/-- All symbols, longer spellings first. -/
def all : List Symbol :=
  [.equivalent, .implies, .equal, .unequal, .lessEq, .greaterEq, .caret, .bar, .tilde, .plus,
   .star, .leftParen, .rightParen, .leftCurly, .rightCurly, .dot, .comma, .underscore,
   .leftBracket, .rightBracket, .less, .greater, .assign, .slash, .minus, .colon, .semicolon,
   .dollar, .question, .ampersand]

def spelling : Symbol → String
  | .caret => "^"
  | .bar => "|"
  | .tilde => "~"
  | .plus => "+"
  | .star => "*"
  | .leftParen => "("
  | .rightParen => ")"
  | .leftCurly => "\x7b"
  | .rightCurly => "\x7d"
  | .dot => "."
  | .comma => ","
  | .underscore => "_"
  | .leftBracket => "["
  | .rightBracket => "]"
  | .implies => "=>"
  | .equivalent => "<=>"
  | .unequal => "~="
  | .lessEq => "<="
  | .less => "<"
  | .greaterEq => ">="
  | .greater => ">"
  | .assign => "="
  | .equal => "=="
  | .slash => "/"
  | .minus => "-"
  | .colon => ":"
  | .semicolon => ";"
  | .dollar => "$"
  | .question => "?"
  | .ampersand => "&"

def className : Symbol → String
  | .caret => "AND"
  | .bar => "OR"
  | .tilde => "NOT"
  | .plus => "PLUS"
  | .star => "TIMES"
  | .leftParen => "LPAREN"
  | .rightParen => "RPAREN"
  | .leftCurly => "LCURLY"
  | .rightCurly => "RCURLY"
  | .dot => "DOT"
  | .comma => "COMMA"
  | .underscore => "UNDERSCORE"
  | .leftBracket => "LBRACK"
  | .rightBracket => "RBRACK"
  | .implies => "IMPLY"
  | .equivalent => "EQUIV"
  | .unequal => "NEQ"
  | .lessEq => "LESSEQ"
  | .less => "LESS"
  | .greaterEq => "GREATEREQ"
  | .greater => "GREATER"
  | .assign => "ASSIGN_EQUAL"
  | .equal => "COMP_EQUAL"
  | .slash => "DIV"
  | .minus => "MINUS"
  | .colon => "COLON"
  | .semicolon => "SEMI"
  | .dollar => "DOLLAR_SIGN"
  | .question => "QUESTION"
  | .ampersand => "AMPERSAND"

end Symbol

/-! ### Lexemes and tokens -/

/-- A word of the language with its value. -/
inductive Lexeme where
  | ident (name : String)
  | variable (name : String)
  | enumValue (name : String)
  | real (value : Binary64)
  | integer (value : Nat)
  | keyword (word : Keyword)
  | symbol (mark : Symbol)
deriving DecidableEq, Repr, Inhabited

namespace Lexeme

def className : Lexeme → String
  | .ident _ => "IDENT"
  | .variable _ => "VAR"
  | .enumValue _ => "ENUM_VAL"
  | .real _ => "DOUBLE"
  | .integer _ => "INTEGER"
  | .keyword word => word.className
  | .symbol mark => mark.className

def datum : Lexeme → Datum
  | .ident name => .text name
  | .variable name => .text name
  | .enumValue name => .text name
  | .real value => .real value
  | .integer value => .integer value
  | .keyword word => .text word.spelling
  | .symbol mark => .text mark.spelling

def valueText : Lexeme → String
  | .ident name => Text.shown name
  | .variable name => Text.shown name
  | .enumValue name => Text.shown name
  | .real value => value.text
  | .integer value => toString value
  | .keyword word => Text.shown word.spelling
  | .symbol mark => Text.shown mark.spelling

end Lexeme

/-- A lexeme with its line and its position in the text. -/
structure Token where
  lexeme : Lexeme
  line : Nat
  position : Nat
deriving DecidableEq, Repr, Inhabited

def Token.describe (t : Token) : String :=
  "LexToken(" ++ t.lexeme.className ++ "," ++ t.lexeme.valueText ++ "," ++ toString t.line ++ ","
    ++ toString t.position ++ ")"

end Rddl
