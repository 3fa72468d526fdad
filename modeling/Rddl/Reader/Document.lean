/-
  Rddl/Reader/Document.lean
  =========================
  **Reading documents.**

  A section is complete when a token stands ahead that may follow it; it is
  announced then.  A domain is made as soon as its block is complete.
-/
import Rddl.Model
import Rddl.Reader.Expr

namespace Rddl.Reader

/-! ### Constants and declarations -/

/-- Read a number after a minus sign. -/
def negated : Reader Constant := take fun
  | .real value => some (.real value.neg)
  | .integer value => some (.integer (-value))
  | _ => none

def constant : Reader Constant := do
  if ← acceptSymbol .minus then negated
  else take fun
    | .keyword .trueWord => some (.truth true)
    | .keyword .falseWord => some (.truth false)
    | .keyword .posInf => some .positiveInfinity
    | .keyword .negInf => some .negativeInfinity
    | .real value => some (.real value)
    | .integer value => some (.integer value)
    | .enumValue name => some (.enumValue name)
    | .ident name => some (.ident name)
    | _ => none

def typeDecl : Reader TypeDecl := do
  let n ← bound
  let name ← ident
  symbol .colon
  let body ←
    if ← accept (.keyword .objectWord) then pure TypeBody.objects
    else do
      symbol .leftCurly
      pure (.enumeration (← looseList enumValue .rightCurly n))
  symbol .semicolon
  pure ⟨name, body⟩

def range : Reader String := take fun
  | .ident name => some name
  | .keyword .intWord => some Keyword.intWord.spelling
  | .keyword .realWord => some Keyword.realWord.spelling
  | .keyword .boolWord => some Keyword.boolWord.spelling
  | _ => none

def fluentKind : Reader FluentKind := take fun
  | .keyword .nonFluent => some .nonFluent
  | .keyword .stateFluent => some .state
  | .keyword .actionFluent => some .action
  | .keyword .intermFluent => some .intermediate
  | .keyword .observFluent => some .observation
  | _ => none

def valued (word : Keyword) : Reader Constant := do
  symbol .comma
  keyword word
  symbol .assign
  constant

/-- Read what follows the range of a variable of the given kind. -/
def role : FluentKind → Reader Role
  | .nonFluent => do pure (.nonFluent (← valued .defaultWord))
  | .state => do pure (.state (← valued .defaultWord))
  | .action => do pure (.action (← valued .defaultWord))
  | .intermediate => do pure (.intermediate (← valued .level))
  | .observation => pure .observation

def pvarDecl : Reader PVarDecl := do
  let n ← bound
  let name ← ident
  let params ←
    if ← acceptSymbol .leftParen then do pure (some (← looseList ident .rightParen n))
    else pure none
  symbol .colon
  symbol .leftCurly
  let kind ← fluentKind
  symbol .comma
  let range ← range
  let role ← role kind
  symbol .rightCurly
  symbol .semicolon
  pure ⟨name, params, range, role⟩

def cpfDecl : Reader CpfDecl := do
  let target ← occurrence
  symbol .assign
  let body ← expression
  symbol .semicolon
  pure ⟨target, body⟩

def condition : Reader Expr := do
  let test ← expression
  symbol .semicolon
  pure test

def objectsDecl : Reader ObjectsDecl := do
  let n ← bound
  let type ← ident
  symbol .colon
  symbol .leftCurly
  let objects ← commaList ident n
  symbol .rightCurly
  symbol .semicolon
  pure ⟨type, objects⟩

def assignmentArgs : Reader (Option (List String)) := do
  let n ← bound
  if ← acceptSymbol .leftParen then
    let args ← commaList label n
    symbol .rightParen
    pure (some args)
  else pure none

def assignment : Reader Assignment := do
  if ← acceptSymbol .tilde then
    let name ← ident
    let args ← assignmentArgs
    symbol .semicolon
    pure ⟨name, args, .truth false⟩
  else
    let name ← ident
    let args ← assignmentArgs
    let value ←
      if ← acceptSymbol .assign then constant
      else pure (.truth true)
    symbol .semicolon
    pure ⟨name, args, value⟩

def count : Reader Bound := take fun
  | .integer value => some (.finite value)
  | .keyword .posInf => some .unbounded
  | _ => none

/-! ### Sections -/

/-- Items in braces, ended by a semicolon. -/
def braced {α : Type} (item : Reader α) : Reader (List α) := do
  let n ← bound
  symbol .leftCurly
  let items ← itemsToClose item n
  symbol .semicolon
  pure items

/-- One item or several in braces, ended by a semicolon. -/
def bracedSome {α : Type} (item : Reader α) : Reader (List α) := do
  let n ← bound
  symbol .leftCurly
  let first ← item
  let rest ← itemsToClose item n
  symbol .semicolon
  pure (first :: rest)

def domainSection (word : Keyword) : Option (Reader DomainSection) :=
  match word with
  | .types => some do pure (.types (← braced typeDecl))
  | .pvariables => some do pure (.pvariables (← braced pvarDecl))
  | .cpfs => some do pure (.cpfs .cpfs (← braced cpfDecl))
  | .cdfs => some do pure (.cpfs .cdfs (← braced cpfDecl))
  | .reward => some do
    symbol .assign
    let body ← expression
    symbol .semicolon
    pure (.reward body)
  | .actionPreconditions => some do pure (.preconditions (← braced condition))
  | .stateActionConstraints => some do pure (.constraints (← braced condition))
  | .stateInvariants => some do pure (.invariants (← braced condition))
  | _ => none

def assignedName : Reader String := do
  symbol .assign
  let name ← ident
  symbol .semicolon
  pure name

def horizon : Reader Horizon := do
  symbol .assign
  if ← accept (.keyword .terminateWhen) then
    symbol .leftParen
    let test ← expression
    symbol .rightParen
    pure (.condition test)
  else
    let steps ← count
    symbol .semicolon
    pure (.steps steps)

def discount : Reader Binary64 := do
  symbol .assign
  let factor ← take fun
    | .real value => some value
    | _ => none
  symbol .semicolon
  pure factor

def nonFluentsSection (word : Keyword) : Option (Reader NonFluentsSection) :=
  match word with
  | .domain => some do pure (.domain (← assignedName))
  | .objects => some do pure (.objects (← braced objectsDecl))
  | .nonFluents => some do pure (.values (← bracedSome assignment))
  | _ => none

def instanceSection (word : Keyword) : Option (Reader InstanceSection) :=
  match word with
  | .domain => some do pure (.domain (← assignedName))
  | .nonFluents => some do pure (.nonFluents (← assignedName))
  | .objects => some do pure (.objects (← braced objectsDecl))
  | .initState => some do pure (.initialState (← bracedSome assignment))
  | .maxNondefActions => some do
    symbol .assign
    let bound ← count
    symbol .semicolon
    pure (.maxActions bound)
  | .horizon => some do pure (.horizon (← horizon))
  | .discount => some do pure (.discount (← discount))
  | _ => none

/-! ### Blocks -/

/-- Whether a section of a domain, or the end of one, may stand ahead. -/
def afterDomainSection : Option Lexeme → Bool
  | some (.symbol .rightCurly) => true
  | some (.keyword word) => (domainSection word).isSome
  | _ => false

def afterInstanceSection : Option Lexeme → Bool
  | some (.symbol .rightCurly) => true
  | some (.keyword word) => (instanceSection word).isSome
  | _ => false

def afterNonFluentsSection : Option Lexeme → Bool
  | some (.symbol .rightCurly) => true
  | some (.keyword word) => (nonFluentsSection word).isSome
  | _ => false

/-- What may stand ahead after a section of a non-fluents block.  Sections that an
    instance may have too are complete also before a section that only an instance
    can have; the reader then stops at that section. -/
def afterNonFluents : NonFluentsSection → Option Lexeme → Bool
  | .values _ => afterNonFluentsSection
  | _ => afterInstanceSection

def afterBlock : Option Lexeme → Bool
  | none => true
  | some (.keyword .domain) => true
  | some (.keyword .nonFluents) => true
  | some (.keyword .instanceWord) => true
  | _ => false

def followedBy (follows : Option Lexeme → Bool) : Reader Unit := do
  if follows (← peek) then pure () else unexpected

def announce : Option String → Reader Unit
  | some title => note (.parsed title)
  | none => pure ()

/-- Read sections up to the closing brace of their block, each of them checked when it
    is complete. -/
def sections {σ : Type} (body : Keyword → Option (Reader σ)) (complete : σ → Reader Unit) :
    Nat → Reader (List σ)
  | 0 => unexpected
  | n + 1 => do
    match ← peek with
    | some (.symbol .rightCurly) => do
      advance
      pure []
    | some (.keyword word) =>
      match body word with
      | some read => do
        advance
        let first ← read
        complete first
        let rest ← sections body complete n
        pure (first :: rest)
      | none => unexpected
    | _ => unexpected

def requirements : Reader (Option (List String)) := do
  let n ← bound
  let names ←
    if ← accept (.keyword .requirements) then
      discard (acceptSymbol .assign)
      symbol .leftCurly
      let names ← looseList ident .rightCurly n
      symbol .semicolon
      pure (some names)
    else pure none
  followedBy afterDomainSection
  announce (some "requirements")
  pure names

def domainBlock : Reader DomainBlock := do
  let n ← bound
  let name ← ident
  symbol .leftCurly
  let needed ← requirements
  let parts ← sections domainSection (fun s => do
    followedBy afterDomainSection
    announce (some s.title)) n
  followedBy afterBlock
  let block : DomainBlock := ⟨name, needed, parts⟩
  match Domain.ofBlock block with
  | .ok _ => pure block
  | .error cause => throw (.fault cause)

/-- Read what follows the keyword of a block that is a name and sections and needs none of
    them. -/
def plainBlock {σ β : Type} (body : Keyword → Option (Reader σ)) (complete : σ → Reader Unit)
    (make : String → List σ → β) : Reader β := do
  let n ← bound
  let name ← ident
  symbol .leftCurly
  let parts ← sections body complete n
  followedBy afterBlock
  pure (make name parts)

def nonFluentsBlock : Reader NonFluentsBlock :=
  plainBlock nonFluentsSection (fun s => do
    followedBy (afterNonFluents s)
    announce s.title?) NonFluentsBlock.mk

def instanceBlock : Reader InstanceBlock :=
  plainBlock instanceSection (fun s => do
    followedBy afterInstanceSection
    announce s.title?) InstanceBlock.mk

def blocks : Nat → Reader Document
  | 0 => unexpected
  | n + 1 => do
    match ← peek with
    | none => pure []
    | some (.keyword .domain) => do
      advance
      let first ← domainBlock
      let rest ← blocks n
      pure (.domain first :: rest)
    | some (.keyword .nonFluents) => do
      advance
      let first ← nonFluentsBlock
      let rest ← blocks n
      pure (.nonFluents first :: rest)
    | some (.keyword .instanceWord) => do
      advance
      let first ← instanceBlock
      let rest ← blocks n
      pure (.problem first :: rest)
    | _ => unexpected

def model : Reader Model := do
  let document ← blocks (← bound)
  match document.model with
  | .ok m => pure m
  | .error cause => throw (.fault cause)

end Rddl.Reader
