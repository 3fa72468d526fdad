/-
  Rddl/Proofs/Grammar/Value.lean
  ==============================
  **The values of derivation trees.**

  Each nonterminal has an action that makes the value of a phrase from the values of
  its parts; the value of a token is its datum.  The value of a tree is what the
  actions make of it, from the leaves up.  `Derives s ls v` says that some tree of the
  grammar has the root `s`, the yield `ls` and the value `v`; its lemmas build such
  trees rule by rule, so that later files never handle a tree.
-/
import Rddl.Model
import Rddl.Proofs.Grammar
import Rddl.Proofs.Syntax.Expr

namespace Rddl

/-! ### Values -/

inductive BlockValue where
  | domain (d : Domain)
  | attributes (a : Attributes)

/-- The value of a phrase: a datum, the sections of a block by key, a block with its key,
    the blocks of a document by key, or a model. -/
inductive Value where
  | datum (d : Datum)
  | sections (t : Table String Datum)
  | block (key : String) (b : BlockValue)
  | blocks (t : Table String BlockValue)
  | model (m : Model)

/-- The model with the given blocks, all three of which are needed. -/
def BlockValue.model (t : Table String BlockValue) : Except Fault Model := do
  match ← t.require "domain", ← t.require "non_fluents", ← t.require "instance" with
  | .domain d, .attributes nonFluents, .attributes problem => .ok ⟨d, nonFluents, problem⟩
  | _, _, _ => .error .wrongShape

/-! ### Actions

An action is given the values of the parts of a phrase in order. -/

namespace PhraseAction

def give (d : Datum) : Except Fault Value := .ok (.datum d)

def first : List Value → Except Fault Value
  | v :: _ => .ok v
  | [] => .error .wrongShape

/-- A list that starts empty and grows by its second part. -/
def collect : List Value → Except Fault Value
  | [.datum .absent] => give (.list [])
  | [.datum (.list xs), .datum x] => give (.list (xs ++ [x]))
  | _ => .error .wrongShape

/-- A list that starts with its first part and grows by its second. -/
def collectSome : List Value → Except Fault Value
  | [.datum (.list xs), .datum x] => give (.list (xs ++ [x]))
  | [.datum x] => give (.list [x])
  | _ => .error .wrongShape

/-- A list that starts with its first part and grows by its third. -/
def collectCommas : List Value → Except Fault Value
  | [.datum (.list xs), _, .datum x] => give (.list (xs ++ [x]))
  | [.datum x] => give (.list [x])
  | _ => .error .wrongShape

/-- A list that starts empty or with its first part and grows by its third. -/
def collectLoose : List Value → Except Fault Value
  | [.datum .absent] => give (.list [])
  | vs => collectCommas vs

/-- Sections by key; a section replaces an earlier one with its key. -/
def sections : List Value → Except Fault Value
  | [.datum .absent] => .ok (.sections .empty)
  | [.sections t, .datum (.tuple [.text key, d])] => .ok (.sections (t.insert key d))
  | _ => .error .wrongShape

def keyed (key : String) : List Value → Except Fault Value
  | _ :: _ :: .datum d :: _ => give (.tuple [.text key, d])
  | _ => .error .wrongShape

/-- The declared variable of a kind with the constant that belongs to the kind. -/
def declaration (kind : FluentKind) (name range params constant : Datum) : Datum :=
  match kind with
  | .intermediate => .pvariable name (.text kind.spelling) range params .absent constant
  | kind => .pvariable name (.text kind.spelling) range params constant .absent

/-- The declaration of a fluent, with and without parameters, with and without a constant. -/
def fluentDef (kind : FluentKind) : List Value → Except Fault Value
  | [.datum name, _, .datum params, _, _, _, _, _, .datum range, _, _, _, .datum constant, _, _] =>
    give (declaration kind name range params constant)
  | [.datum name, _, _, _, _, .datum range, _, _, _, .datum constant, _, _] =>
    give (declaration kind name range .absent constant)
  | [.datum name, _, .datum params, _, _, _, _, _, .datum range, _, _] =>
    give (declaration kind name range params .absent)
  | [.datum name, _, _, _, _, .datum range, _, _] =>
    give (declaration kind name range .absent .absent)
  | _ => .error .wrongShape

/-- An operation on two expressions or on one, or a literal with the given head. -/
def operation (literal : String) : List Value → Except Fault Value
  | [.datum left, .datum operator, .datum right] => give (.tuple [operator, .tuple [left, right]])
  | [.datum operator, .datum body] => give (.tuple [operator, .tuple [body]])
  | [.datum value] => give (.tuple [.text literal, value])
  | _ => .error .wrongShape

def overVariables : List Value → Except Fault Value
  | [.datum head, _, _, .datum (.list vars), _, .datum body] =>
    give (.tuple [head, .tuple (vars ++ [body])])
  | _ => .error .wrongShape

def distribution (name : Datum) (parameters : List Datum) : Datum :=
  .tuple [.text "randomvar", .tuple [name, .tuple parameters]]

/-- A distribution; a list among its parts are the outcomes of a discrete one. -/
def random : List Value → Except Fault Value
  | [.datum name, _, .datum type, _, .datum (.list outcomes), _] =>
    give (distribution name (.tuple [.text "enum_type", type] :: outcomes))
  | [.datum name, _, .datum a, _, .datum b, _] => give (distribution name [a, b])
  | [.datum name, _, .datum a, _] => give (distribution name [a])
  | _ => .error .wrongShape

def outcome (label weight : Datum) : Datum := .tuple [.text "lconst", .tuple [label, weight]]

def outcomes : List Value → Except Fault Value
  | [.datum label, _, .datum weight] => give (.list [outcome label weight])
  | [.datum (.list os), _, .datum label, _, .datum weight] =>
    give (.list (os ++ [outcome label weight]))
  | _ => .error .wrongShape

def assignment (name args value : Datum) : Datum := .tuple [.tuple [name, args], value]

/-- An assignment, told from the others by its number of parts. -/
def assigned : List Value → Except Fault Value
  | [.datum name, _, .datum args, _, _] => give (assignment name args (.truth true))
  | [.datum name, _] => give (assignment name .absent (.truth true))
  | [_, .datum name, _, .datum args, _, _] => give (assignment name args (.truth false))
  | [_, .datum name, _] => give (assignment name .absent (.truth false))
  | [.datum name, _, .datum args, _, _, .datum value, _] => give (assignment name args value)
  | [.datum name, _, .datum value, _] => give (assignment name .absent value)
  | _ => .error .wrongShape

end PhraseAction

open PhraseAction in
/-- The value of a phrase, made from the values of its parts. -/
def Nonterminal.action : Nonterminal → List Value → Except Fault Value
  | .rddl, [.blocks t] => do .ok (.model (← BlockValue.model t))
  | .rddlBlock, [.datum .absent] => .ok (.blocks .empty)
  | .rddlBlock, [.blocks t, .block key b] => .ok (.blocks (t.insert key b))
  | .domainBlock, [_, .datum name, _, .datum requirements, .sections t, _] => do
    .ok (.block "domain" (.domain (← Domain.ofSections name requirements t)))
  | .reqSection, [_, _, _, .datum names, _, _] => give names
  | .reqSection, [_, _, .datum names, _, _] => give names
  | .reqSection, [_] => give .absent
  | .domainList, vs => PhraseAction.sections vs
  | .typeSection, vs => keyed "types" vs
  | .typeList, vs => collect vs
  | .typeDef, [.datum name, _, .datum word, _] => give (.tuple [name, word])
  | .typeDef, [.datum name, _, _, .datum values, _, _] => give (.tuple [name, values])
  | .enumList, vs => collectLoose vs
  | .pvarSection, vs => keyed "pvariables" vs
  | .pvarList, vs => collect vs
  | .pvarDef, vs => first vs
  | .fluentDef kind, vs => PhraseAction.fluentDef kind vs
  | .cpfSection, [.datum header, _, .datum cpfs, _, _] =>
    give (.tuple [.text "cpfs", .tuple [header, cpfs]])
  | .cpfHeader, vs => first vs
  | .cpfList, vs => collect vs
  | .cpfDef, [.datum target, _, .datum body, _] => give (.cpf target body)
  | .rewardSection, vs => keyed "reward" vs
  | .conditionSection which, [_, _, .datum conditions, _, _] =>
    give (.tuple [.text which.key, conditions])
  | .conditionSection which, [_, _, _, _] => give (.tuple [.text which.key, .list []])
  | .conditionList _, vs => collectSome vs
  | .conditionDef _, vs => first vs
  | .termList, vs => collectLoose vs
  | .term, [.datum (.tuple (.text "pvar_expr" :: rest))] =>
    give (.expression (.tuple (.text "pvar_expr" :: rest)))
  | .term, [.datum d] => give d
  | .expr, [.datum d] => give (.expression d)
  | .penumExpr, [.datum d] => give (.tuple [.text "penum_expr", d])
  | .paramExpr, [.datum d] => give (.tuple [.text "param_expr", d])
  | .pvarExpr, [.datum name] => give (.tuple [.text "pvar_expr", .tuple [name, .absent]])
  | .pvarExpr, [.datum name, _, .datum args, _] =>
    give (.tuple [.text "pvar_expr", .tuple [name, args]])
  | .groupExpr, [_, .datum d, _] => give d
  | .functionExpr, [.datum name, _, .datum args, _] =>
    give (.tuple [.text "func", .tuple [name, args]])
  | .relationalExpr, [.datum left, .datum operator, .datum right] =>
    give (.tuple [operator, .tuple [left, right]])
  | .booleanExpr, vs => operation "boolean" vs
  | .quantifierExpr, vs => overVariables vs
  | .numericalExpr, vs => operation "number" vs
  | .aggregationExpr, vs => overVariables vs
  | .caseExpr, [.datum d] => give (.expression d)
  | .controlExpr, [.datum word, _, .datum condition, _, _, .datum yes, _, .datum no] =>
    give (.tuple [word, .tuple [condition, yes, no]])
  | .controlExpr, [.datum word, _, .datum subject, _, _, .datum (.list cases), _] =>
    give (.tuple [word, .tuple (subject :: cases)])
  | .randomvarExpr, vs => random vs
  | .typedVarList, vs => collectCommas vs
  | .typedVar, [.datum name, _, .datum type] =>
    give (.tuple [.text "typed_var", .tuple [name, type]])
  | .exprList, vs => collectCommas vs
  | .caseList, vs => collectCommas vs
  | .caseDef, [_, .datum guard, _, .datum body] =>
    give (.tuple [.text "case", .tuple [guard, body]])
  | .caseDef, [_, _, .datum body] => give (.tuple [.text "default", body])
  | .lconstCaseList, vs => PhraseAction.outcomes vs
  | .lconst, vs => first vs
  | .paramList, vs => first vs
  | .typeSpec, vs => first vs
  | .rangeConst, [.datum (.tuple (_ :: d :: _))] => give d
  | .rangeConst, [.datum d] => give d
  | .boolType, [.datum d] => give (.truth (d.isText "true"))
  | .doubleType, [.datum d] => give d
  | .doubleType, [_, .datum (.real x)] => give (.real x.neg)
  | .intType, [.datum d] => give d
  | .intType, [_, .datum (.integer n)] => give (.integer (-n))
  | .posIntOrPosInf, vs => first vs
  | .instanceBlock, [_, .datum name, _, .sections t, _] =>
    .ok (.block "instance" (.attributes (.problem name t.entries)))
  | .instanceList, vs => PhraseAction.sections vs
  | .domainSection, vs => keyed "domain" vs
  | .nonfluentsSection, vs => keyed "non_fluents" vs
  | .objectsSection, vs => keyed "objects" vs
  | .initStateSection, vs => keyed "init_state" vs
  | .maxNondefActionsSection, vs => keyed "max_nondef_actions" vs
  | .horizonSpecSection, [_, _, .datum d, _] => give (.tuple [.text "horizon", d])
  | .horizonSpecSection, [_, _, _, _, .datum d, _] => give (.tuple [.text "horizon", d])
  | .discountSection, vs => keyed "discount" vs
  | .nonfluentBlock, [_, .datum name, _, .sections t, _] =>
    .ok (.block "non_fluents" (.attributes (.nonFluents name t.entries)))
  | .nonfluentList, vs => PhraseAction.sections vs
  | .initNonFluentSection, vs => keyed "init_non_fluent" vs
  | .objectsList, vs => collectSome vs
  | .objectsDef, [.datum type, _, _, .datum objects, _, _] => give (.tuple [type, objects])
  | .objectConstList, vs => collectCommas vs
  | .pvarInstList, vs => collectSome vs
  | .pvarInstDef, vs => assigned vs
  | .lconstList, vs => collectCommas vs
  | .stringList, vs => collectLoose vs
  | .empty, [] => give .absent
  | _, _ => .error .wrongShape

/-! ### Trees with their values -/

namespace ParseTree

mutual

def value : ParseTree → Except Fault Value
  | leaf token => .ok (.datum token.datum)
  | node phrase children => do phrase.action (← values children)

def values : List ParseTree → Except Fault (List Value)
  | [] => .ok []
  | t :: ts => do .ok ((← t.value) :: (← values ts))

end

end ParseTree

/-- Some tree of the grammar has the given root, yield and value. -/
def Derives (s : BodySymbol) (ls : List Lexeme) (v : Value) : Prop :=
  ∃ t : ParseTree, t.Applies ∧ t.root = s ∧ t.yield = ls ∧ t.value = .ok v

def DerivesAll (ss : List BodySymbol) (ls : List Lexeme) (vs : List Value) : Prop :=
  ∃ ts : List ParseTree, (∀ t ∈ ts, t.Applies) ∧ ts.map ParseTree.root = ss ∧
    ParseTree.yields ts = ls ∧ ParseTree.values ts = .ok vs

theorem Derives.token (l : Lexeme) : Derives (.terminal l.terminal) [l] (.datum l.datum) :=
  ⟨.leaf l, .leaf l, rfl, rfl, rfl⟩

namespace DerivesAll

theorem nil : DerivesAll [] [] [] := ⟨[], by simp, rfl, rfl, rfl⟩

theorem cons {s : BodySymbol} {ss : List BodySymbol} {ls ls' : List Lexeme} {v : Value}
    {vs : List Value} (h : Derives s ls v) (hs : DerivesAll ss ls' vs) :
    DerivesAll (s :: ss) (ls ++ ls') (v :: vs) := by
  obtain ⟨t, happlies, hroot, hyield, hvalue⟩ := h
  obtain ⟨ts, happlies', hroots, hyields, hvalues⟩ := hs
  refine ⟨t :: ts, ?_, by simp [hroot, hroots], by simp [ParseTree.yields, hyield, hyields], ?_⟩
  · intro t' ht'
    rcases List.mem_cons.mp ht' with rfl | ht'
    · exact happlies
    · exact happlies' t' ht'
  · simp [ParseTree.values, hvalue, hvalues, bind, Except.bind]

theorem token (l : Lexeme) {ss : List BodySymbol} {ls : List Lexeme} {vs : List Value}
    (hs : DerivesAll ss ls vs) :
    DerivesAll (.terminal l.terminal :: ss) (l :: ls) (.datum l.datum :: vs) :=
  cons (.token l) hs

/-! A token names its symbol in the grammar, whatever its value is. -/

section Tokens

variable {ss : List BodySymbol} {ls : List Lexeme} {vs : List Value}

theorem ident (name : String) (hs : DerivesAll ss ls vs) :
    DerivesAll (.ident :: ss) (.ident name :: ls) (.datum (.text name) :: vs) :=
  token (.ident name) hs

theorem variableName (name : String) (hs : DerivesAll ss ls vs) :
    DerivesAll (.terminal .variable :: ss) (.variable name :: ls) (.datum (.text name) :: vs) :=
  token (.variable name) hs

theorem enumValue (name : String) (hs : DerivesAll ss ls vs) :
    DerivesAll (.terminal .enumValue :: ss) (.enumValue name :: ls) (.datum (.text name) :: vs) :=
  token (.enumValue name) hs

theorem integer (value : Nat) (hs : DerivesAll ss ls vs) :
    DerivesAll (.terminal .integer :: ss) (.integer value :: ls) (.datum (.integer value) :: vs) :=
  token (.integer value) hs

theorem real (value : Binary64) (hs : DerivesAll ss ls vs) :
    DerivesAll (.terminal .real :: ss) (.real value :: ls) (.datum (.real value) :: vs) :=
  token (.real value) hs

theorem word (w : Keyword) (hs : DerivesAll ss ls vs) :
    DerivesAll (.word w :: ss) (.keyword w :: ls) (.datum (.text w.spelling) :: vs) :=
  token (.keyword w) hs

theorem mark (m : Symbol) (hs : DerivesAll ss ls vs) :
    DerivesAll (.mark m :: ss) (.symbol m :: ls) (.datum (.text m.spelling) :: vs) :=
  token (.symbol m) hs

end Tokens

theorem single {s : BodySymbol} {ls : List Lexeme} {v : Value} (h : Derives s ls v) :
    DerivesAll [s] ls [v] := by
  simpa using cons h nil

end DerivesAll

theorem Derives.phrase {n : Nonterminal} {body : List BodySymbol} {ls : List Lexeme}
    {vs : List Value} {v : Value} (hbody : body ∈ n.bodies) (hs : DerivesAll body ls vs)
    (haction : n.action vs = .ok v) : Derives n.part ls v := by
  obtain ⟨ts, happlies, rfl, hyields, hvalues⟩ := hs
  refine ⟨.node n ts, .node hbody happlies, rfl, hyields, ?_⟩
  simpa [ParseTree.value, hvalues, bind, Except.bind] using haction

theorem Derives.empty : Derives Nonterminal.empty.part [] (.datum .absent) :=
  .phrase (by decide) .nil rfl

/-! ### Lists -/

section Lists

variable {α : Type} {list : Nonterminal} {item : BodySymbol} {datum : α → Datum} {as : List α}
  {ls ls₀ : List Lexeme} {xs : List Datum}

/-- A list grows by items after commas. -/
theorem Derives.commaTail (hbody : [list.part, .mark .comma, item] ∈ list.bodies)
    (haction : ∀ xs c x, list.action [.datum (.list xs), c, .datum x] =
      .ok (.datum (.list (xs ++ [x]))))
    (has : CommaTail (fun a l => Derives item l (.datum (datum a))) as ls)
    (h : Derives list.part ls₀ (.datum (.list xs))) :
    Derives list.part (ls₀ ++ ls) (.datum (.list (xs ++ as.map datum))) := by
  induction has generalizing ls₀ xs with
  | nil => simpa using h
  | @cons a as l ls ha _ ih =>
    have hgrown : Derives list.part (ls₀ ++ .symbol .comma :: l)
        (.datum (.list (xs ++ [datum a]))) :=
      .phrase hbody (.cons h (.mark .comma (.single ha))) (haction _ _ _)
    simpa using ih hgrown

theorem Derives.commaList (hbodies : list.bodies = list.commaSomeOf item)
    (haction : list.action = PhraseAction.collectCommas)
    (has : CommaList (fun a l => Derives item l (.datum (datum a))) as ls) :
    Derives list.part ls (.datum (.list (as.map datum))) := by
  cases has with
  | @mk a _ l _ ha has =>
    have hfirst : Derives list.part l (.datum (.list [datum a])) := by
      refine .phrase ?_ (.single ha) ?_
      · simp [hbodies, Nonterminal.commaSomeOf]
      · rw [haction]
        cases datum a <;> rfl
    refine .commaTail ?_ (fun _ _ _ => by rw [haction]; rfl) has hfirst
    simp [hbodies, Nonterminal.commaSomeOf]

/-- A list that may be empty may also start with a comma: nothing stands before it. -/
theorem Derives.looseList (hbodies : list.bodies = list.commaManyOf item)
    (haction : list.action = PhraseAction.collectLoose) (hdatum : ∀ a, datum a ≠ .absent)
    (has : LooseList (fun a l => Derives item l (.datum (datum a))) as ls) :
    Derives list.part ls (.datum (.list (as.map datum))) := by
  have hgrow : [list.part, .mark .comma, item] ∈ list.bodies := by
    simp [hbodies, Nonterminal.commaManyOf, Nonterminal.commaSomeOf]
  have hgrows : ∀ xs c x, list.action [.datum (.list xs), c, .datum x] =
      .ok (.datum (.list (xs ++ [x]))) := fun _ _ _ => by rw [haction]; rfl
  have hnone : Derives list.part [] (.datum (.list [])) := by
    refine .phrase ?_ (.single .empty) (by rw [haction]; rfl)
    simp [hbodies, Nonterminal.commaManyOf]
  cases has with
  | nil => exact hnone
  | @plain a _ l _ ha has =>
    have hfirst : Derives list.part l (.datum (.list [datum a])) := by
      refine .phrase ?_ (.single ha) ?_
      · simp [hbodies, Nonterminal.commaManyOf, Nonterminal.commaSomeOf]
      · -- an absent first part would be taken for the empty list
        rw [haction]
        cases hd : datum a with
        | absent => exact absurd hd (hdatum a)
        | _ => rfl
    exact .commaTail hgrow hgrows has hfirst
  | afterComma ha has => exact .commaTail hgrow hgrows (.cons ha has) hnone

/-- A phrase that grows on the right: each part behind it takes its value one step on. -/
theorem Derives.growing {σ : Type} (value : σ → Value) (step : σ → α → σ) {part : α → Value}
    {t : σ} (haction : ∀ t a, list.action [value t, part a] = .ok (value (step t a)))
    (has : Items (fun a l => ∃ s, [list.part, s] ∈ list.bodies ∧ Derives s l (part a)) as ls)
    (h : Derives list.part ls₀ (value t)) :
    Derives list.part (ls₀ ++ ls) (value (as.foldl step t)) := by
  -- the phrase grows from the left, so the induction is over what stands behind it
  induction has generalizing ls₀ t with
  | nil => simpa using h
  | cons ha _ ih =>
    obtain ⟨s, hbody, hs⟩ := ha
    have hgrown := Derives.phrase hbody (.cons h (.single hs)) (haction _ _)
    simpa using ih hgrown

theorem Derives.items (hbody : [list.part, item] ∈ list.bodies)
    (haction : ∀ xs x, list.action [.datum (.list xs), .datum x] =
      .ok (.datum (.list (xs ++ [x]))))
    (has : Items (fun a l => Derives item l (.datum (datum a))) as ls)
    (h : Derives list.part ls₀ (.datum (.list xs))) :
    Derives list.part (ls₀ ++ ls) (.datum (.list (xs ++ as.map datum))) := by
  have hfold : as.foldl (fun xs a => xs ++ [datum a]) xs = xs ++ as.map datum := by
    rw [List.foldl_append_eq_append, ← List.flatMap_def, ← List.map_eq_flatMap]
  rw [← hfold]
  exact .growing (fun xs => .datum (.list xs)) _ (fun xs a => haction xs (datum a))
    (has.imp fun a l ha => ⟨item, hbody, ha⟩) h

theorem Derives.itemsFromNone {phrase : Nonterminal} (hbodies : list.bodies = list.manyOf phrase)
    (haction : list.action = PhraseAction.collect)
    (has : Items (fun a l => Derives phrase.part l (.datum (datum a))) as ls) :
    Derives list.part ls (.datum (.list (as.map datum))) := by
  have hnone : Derives list.part [] (.datum (.list [])) := by
    refine .phrase ?_ (.single .empty) (by rw [haction]; rfl)
    simp [hbodies, Nonterminal.manyOf]
  refine .items ?_ (fun _ _ => by rw [haction]; rfl) has hnone
  simp [hbodies, Nonterminal.manyOf]

theorem Derives.itemsFromFirst (hgrow : [list.part, item] ∈ list.bodies)
    (hone : [item] ∈ list.bodies) (haction : list.action = PhraseAction.collectSome) {a : α}
    (has : Items (fun a l => Derives item l (.datum (datum a))) (a :: as) ls) :
    Derives list.part ls (.datum (.list ((a :: as).map datum))) := by
  cases has with
  | @cons _ _ l _ ha has =>
    have hfirst : Derives list.part l (.datum (.list [datum a])) := by
      refine .phrase hone (.single ha) ?_
      rw [haction]
      cases datum a <;> rfl
    exact .items hgrow (fun _ _ => by rw [haction]; rfl) has hfirst

end Lists

/-- Sections one after another fill the table of their block. -/
theorem Derives.sections {σ : Type} {list : Nonterminal} {phrase : σ → Nonterminal}
    {entry : σ → String × Datum} (hgrow : ∀ s, [list.part, (phrase s).part] ∈ list.bodies)
    (hnone : [Nonterminal.empty.part] ∈ list.bodies) (haction : list.action = PhraseAction.sections)
    {ss : List σ} {ls : List Lexeme}
    (hss : Items (fun s l => Derives (phrase s).part l
      (.datum (.tuple [.text (entry s).1, (entry s).2]))) ss ls) :
    Derives list.part ls (.sections (Table.ofList (ss.map entry))) := by
  have hempty : Derives list.part [] (.sections .empty) :=
    .phrase hnone (.single .empty) (by rw [haction]; rfl)
  rw [Table.ofList, List.foldl_map]
  refine .growing .sections _ ?_ (hss.imp fun s l hs => ⟨_, hgrow s, hs⟩) hempty
  intro t s
  rw [haction]
  rfl

end Rddl
