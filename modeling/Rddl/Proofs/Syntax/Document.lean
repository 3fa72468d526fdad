/-
  Rddl/Proofs/Syntax/Document.lean
  ================================
  **How documents are written.**

  One relation for each form of declaration, section and block, all over the lexemes
  that spell it.  A list of items in braces may be spelled in several ways where its
  first item may follow a comma, and so may the requirements, with or without an
  equals sign.
-/
import Rddl.Document
import Rddl.Proofs.Syntax.Expr

namespace Rddl

/-- Lexemes in braces, ended by a semicolon. -/
def inBraces (ls : List Lexeme) : List Lexeme :=
  .symbol .leftCurly :: (ls ++ [.symbol .rightCurly, .symbol .semicolon])

/-! ### Constants and declarations -/

inductive Constant.Written : Constant → List Lexeme → Prop
  | truth (value : Bool) : Constant.Written (.truth value) [.keyword (truthKeyword value)]
  | positiveInfinity : Constant.Written .positiveInfinity [.keyword .posInf]
  | negativeInfinity : Constant.Written .negativeInfinity [.keyword .negInf]
  | real (value : Binary64) : Constant.Written (.real value) [.real value]
  | negatedReal (value : Binary64) :
      Constant.Written (.real value.neg) [.symbol .minus, .real value]
  | integer (value : Nat) : Constant.Written (.integer value) [.integer value]
  | negatedInteger (value : Nat) :
      Constant.Written (.integer (-value)) [.symbol .minus, .integer value]
  | enumValue (name : String) : Constant.Written (.enumValue name) [.enumValue name]
  | ident (name : String) : Constant.Written (.ident name) [.ident name]

inductive TypeDecl.Written : TypeDecl → List Lexeme → Prop
  | objects (name : String) : TypeDecl.Written ⟨name, .objects⟩
      [.ident name, .symbol .colon, .keyword .objectWord, .symbol .semicolon]
  | enumeration (name : String) {values ls} : LooseList EnumValueWritten values ls →
      TypeDecl.Written ⟨name, .enumeration values⟩
        (.ident name :: .symbol .colon :: inBraces ls)

inductive RangeWritten : String → Lexeme → Prop
  | ident (name : String) : RangeWritten name (.ident name)
  | int : RangeWritten Keyword.intWord.spelling (.keyword .intWord)
  | real : RangeWritten Keyword.realWord.spelling (.keyword .realWord)
  | bool : RangeWritten Keyword.boolWord.spelling (.keyword .boolWord)

def FluentKind.keyword : FluentKind → Keyword
  | .nonFluent => .nonFluent
  | .state => .stateFluent
  | .action => .actionFluent
  | .intermediate => .intermFluent
  | .observation => .observFluent

/-- How the constant that belongs to the kind of a variable is written, after its range. -/
inductive Role.Written : Role → List Lexeme → Prop
  | nonFluent {default ls} : Constant.Written default ls → Role.Written (.nonFluent default)
      (.symbol .comma :: .keyword .defaultWord :: .symbol .assign :: ls)
  | state {default ls} : Constant.Written default ls → Role.Written (.state default)
      (.symbol .comma :: .keyword .defaultWord :: .symbol .assign :: ls)
  | action {default ls} : Constant.Written default ls → Role.Written (.action default)
      (.symbol .comma :: .keyword .defaultWord :: .symbol .assign :: ls)
  | intermediate {level ls} : Constant.Written level ls → Role.Written (.intermediate level)
      (.symbol .comma :: .keyword .level :: .symbol .assign :: ls)
  | observation : Role.Written .observation []

/-- How the parameters of a variable are written, if it has a parameter list. -/
inductive ParamsWritten : Option (List String) → List Lexeme → Prop
  | none : ParamsWritten none []
  | some {types ls} : LooseList IdentWritten types ls →
      ParamsWritten (some types) (.symbol .leftParen :: (ls ++ [.symbol .rightParen]))

inductive PVarDecl.Written : PVarDecl → List Lexeme → Prop
  | mk (name : String) {params range role ps r rs} : ParamsWritten params ps →
      RangeWritten range r → Role.Written role rs →
      PVarDecl.Written ⟨name, params, range, role⟩
        (.ident name :: (ps ++ .symbol .colon :: .symbol .leftCurly ::
          .keyword role.kind.keyword :: .symbol .comma :: r ::
            (rs ++ [.symbol .rightCurly, .symbol .semicolon])))

inductive CpfDecl.Written : CpfDecl → List Lexeme → Prop
  | mk {target body ts ls} : Occurrence.Written target ts → Expr.Written body ls →
      CpfDecl.Written ⟨target, body⟩ (ts ++ .symbol .assign :: (ls ++ [.symbol .semicolon]))

inductive ConditionWritten : Expr → List Lexeme → Prop
  | mk {test ls} : Expr.Written test ls → ConditionWritten test (ls ++ [.symbol .semicolon])

inductive ObjectsDecl.Written : ObjectsDecl → List Lexeme → Prop
  | mk (type : String) {objects ls} : CommaList IdentWritten objects ls →
      ObjectsDecl.Written ⟨type, objects⟩ (.ident type :: .symbol .colon :: inBraces ls)

inductive ArgsWritten : Option (List String) → List Lexeme → Prop
  | none : ArgsWritten none []
  | some {args ls} : CommaList LabelWritten args ls →
      ArgsWritten (some args) (.symbol .leftParen :: (ls ++ [.symbol .rightParen]))

inductive Assignment.Written : Assignment → List Lexeme → Prop
  | negated (name : String) {args as} : ArgsWritten args as →
      Assignment.Written ⟨name, args, .truth false⟩
        (.symbol .tilde :: .ident name :: (as ++ [.symbol .semicolon]))
  | plain (name : String) {args as} : ArgsWritten args as →
      Assignment.Written ⟨name, args, .truth true⟩ (.ident name :: (as ++ [.symbol .semicolon]))
  | valued (name : String) {args value as vs} : ArgsWritten args as →
      Constant.Written value vs →
      Assignment.Written ⟨name, args, value⟩
        (.ident name :: (as ++ .symbol .assign :: (vs ++ [.symbol .semicolon])))

inductive Bound.Written : Bound → Lexeme → Prop
  | finite (count : Nat) : Bound.Written (.finite count) (.integer count)
  | unbounded : Bound.Written .unbounded (.keyword .posInf)

/-- How a horizon is written, after its keyword.  A condition has no semicolon. -/
inductive Horizon.Written : Horizon → List Lexeme → Prop
  | steps {count l} : Bound.Written count l →
      Horizon.Written (.steps count) [.symbol .assign, l, .symbol .semicolon]
  | condition {test ls} : Expr.Written test ls → Horizon.Written (.condition test)
      (.symbol .assign :: .keyword .terminateWhen :: .symbol .leftParen ::
        (ls ++ [.symbol .rightParen]))

/-! ### Sections -/

inductive DomainSection.Written : DomainSection → List Lexeme → Prop
  | types {decls ls} : Items TypeDecl.Written decls ls →
      DomainSection.Written (.types decls) (.keyword .types :: inBraces ls)
  | pvariables {decls ls} : Items PVarDecl.Written decls ls →
      DomainSection.Written (.pvariables decls) (.keyword .pvariables :: inBraces ls)
  | cpfs {decls ls} : Items CpfDecl.Written decls ls →
      DomainSection.Written (.cpfs .cpfs decls) (.keyword .cpfs :: inBraces ls)
  | cdfs {decls ls} : Items CpfDecl.Written decls ls →
      DomainSection.Written (.cpfs .cdfs decls) (.keyword .cdfs :: inBraces ls)
  | reward {body ls} : Expr.Written body ls → DomainSection.Written (.reward body)
      (.keyword .reward :: .symbol .assign :: (ls ++ [.symbol .semicolon]))
  | preconditions {conditions ls} : Items ConditionWritten conditions ls →
      DomainSection.Written (.preconditions conditions)
        (.keyword .actionPreconditions :: inBraces ls)
  | constraints {conditions ls} : Items ConditionWritten conditions ls →
      DomainSection.Written (.constraints conditions)
        (.keyword .stateActionConstraints :: inBraces ls)
  | invariants {conditions ls} : Items ConditionWritten conditions ls →
      DomainSection.Written (.invariants conditions) (.keyword .stateInvariants :: inBraces ls)

inductive NonFluentsSection.Written : NonFluentsSection → List Lexeme → Prop
  | domain (name : String) : NonFluentsSection.Written (.domain name)
      [.keyword .domain, .symbol .assign, .ident name, .symbol .semicolon]
  | objects {decls ls} : Items ObjectsDecl.Written decls ls →
      NonFluentsSection.Written (.objects decls) (.keyword .objects :: inBraces ls)
  | values {first rest ls} : Items Assignment.Written (first :: rest) ls →
      NonFluentsSection.Written (.values (first :: rest)) (.keyword .nonFluents :: inBraces ls)

inductive InstanceSection.Written : InstanceSection → List Lexeme → Prop
  | domain (name : String) : InstanceSection.Written (.domain name)
      [.keyword .domain, .symbol .assign, .ident name, .symbol .semicolon]
  | nonFluents (name : String) : InstanceSection.Written (.nonFluents name)
      [.keyword .nonFluents, .symbol .assign, .ident name, .symbol .semicolon]
  | objects {decls ls} : Items ObjectsDecl.Written decls ls →
      InstanceSection.Written (.objects decls) (.keyword .objects :: inBraces ls)
  | initialState {first rest ls} : Items Assignment.Written (first :: rest) ls →
      InstanceSection.Written (.initialState (first :: rest)) (.keyword .initState :: inBraces ls)
  | maxActions {count l} : Bound.Written count l → InstanceSection.Written (.maxActions count)
      [.keyword .maxNondefActions, .symbol .assign, l, .symbol .semicolon]
  | horizon {limit ls} : Horizon.Written limit ls →
      InstanceSection.Written (.horizon limit) (.keyword .horizon :: ls)
  | discount (factor : Binary64) : InstanceSection.Written (.discount factor)
      [.keyword .discount, .symbol .assign, .real factor, .symbol .semicolon]

/-! ### Blocks -/

inductive RequirementsWritten : Option (List String) → List Lexeme → Prop
  | none : RequirementsWritten none []
  | plain {names ls} : LooseList IdentWritten names ls →
      RequirementsWritten (some names) (.keyword .requirements :: inBraces ls)
  | assigned {names ls} : LooseList IdentWritten names ls →
      RequirementsWritten (some names) (.keyword .requirements :: .symbol .assign :: inBraces ls)

inductive Block.Written : Block → List Lexeme → Prop
  | domain (name : String) {requirements sections rs ss} :
      RequirementsWritten requirements rs → Items DomainSection.Written sections ss →
      Block.Written (.domain ⟨name, requirements, sections⟩)
        (.keyword .domain :: .ident name :: .symbol .leftCurly ::
          (rs ++ (ss ++ [.symbol .rightCurly])))
  | nonFluents (name : String) {sections ss} : Items NonFluentsSection.Written sections ss →
      Block.Written (.nonFluents ⟨name, sections⟩)
        (.keyword .nonFluents :: .ident name :: .symbol .leftCurly ::
          (ss ++ [.symbol .rightCurly]))
  | problem (name : String) {sections ss} : Items InstanceSection.Written sections ss →
      Block.Written (.problem ⟨name, sections⟩)
        (.keyword .instanceWord :: .ident name :: .symbol .leftCurly ::
          (ss ++ [.symbol .rightCurly]))

def Document.Written (d : Document) (ls : List Lexeme) : Prop := Items Block.Written d ls

end Rddl
