/-
  Rddl/Proofs/Grammar/Document.lean
  =================================
  **Written documents are derived by the grammar, and their values are their models.**

  Constants, declarations, sections and blocks in turn: the lexemes that spell one are
  the yield of a derivation tree whose value is its datum.  The blocks of a document
  fill a table, in which the last block of each kind is found, as its model has it
  (`Document.Written.derives`).
-/
import Rddl.Proofs.Collections
import Rddl.Proofs.Grammar.Expr
import Rddl.Proofs.Reading

namespace Rddl

open Nonterminal

/-! ### Names and constants -/

theorem IdentWritten.derives {name : String} {ls : List Lexeme} (h : IdentWritten name ls) :
    Derives .ident ls (.datum (.text name)) := by
  cases h with
  | mk => exact .token (.ident name)

theorem EnumValueWritten.derives {name : String} {ls : List Lexeme}
    (h : EnumValueWritten name ls) :
    Derives (.terminal .enumValue) ls (.datum (.text name)) := by
  cases h with
  | mk => exact .token (.enumValue name)

theorem text_ne_absent (s : String) : Datum.text s ≠ .absent := Datum.noConfusion

theorem derives_stringList {names : List String} {ls : List Lexeme}
    (h : LooseList IdentWritten names ls) :
    Derives stringList.part ls (.datum (Datum.texts names)) :=
  .looseList rfl rfl text_ne_absent (h.imp fun _ _ _ hname => hname.derives)

theorem derives_enumList {values : List String} {ls : List Lexeme}
    (h : LooseList EnumValueWritten values ls) :
    Derives enumList.part ls (.datum (Datum.texts values)) :=
  .looseList rfl rfl text_ne_absent (h.imp fun _ _ _ hvalue => hvalue.derives)

theorem derives_objectConstList {objects : List String} {ls : List Lexeme}
    (h : CommaList IdentWritten objects ls) :
    Derives objectConstList.part ls (.datum (Datum.texts objects)) :=
  .commaList rfl rfl (h.imp fun _ _ _ hname => hname.derives)

theorem derives_lconstList {args : List String} {ls : List Lexeme}
    (h : CommaList LabelWritten args ls) :
    Derives lconstList.part ls (.datum (Datum.texts args)) :=
  .commaList rfl rfl (h.imp fun _ _ _ hlabel => hlabel.derives)

theorem Constant.Written.derives {c : Constant} {ls : List Lexeme} (h : c.Written ls) :
    Derives rangeConst.part ls (.datum c.datum) := by
  cases h with
  | truth value => exact .phrase (by decide) (.single (derives_boolType value)) rfl
  -- an infinity is a number, and so has a phrase of its own between
  | positiveInfinity =>
    have hdouble := Derives.phrase (n := doubleType) (by decide) (.word .posInf .nil) rfl
    exact .phrase (by decide) (.single hdouble) rfl
  | negativeInfinity =>
    have hdouble := Derives.phrase (n := doubleType) (by decide) (.word .negInf .nil) rfl
    exact .phrase (by decide) (.single hdouble) rfl
  | real value =>
    have hdouble := Derives.phrase (n := doubleType) (by decide) (.real value .nil) rfl
    exact .phrase (by decide) (.single hdouble) rfl
  | negatedReal value =>
    have hdouble := Derives.phrase (n := doubleType) (by decide)
      (.mark .minus (.real value .nil)) rfl
    exact .phrase (by decide) (.single hdouble) rfl
  | integer value =>
    have hint := Derives.phrase (n := intType) (by decide) (.integer value .nil) rfl
    exact .phrase (by decide) (.single hint) rfl
  | negatedInteger value =>
    have hint := Derives.phrase (n := intType) (by decide)
      (.mark .minus (.integer value .nil)) rfl
    exact .phrase (by decide) (.single hint) rfl
  | enumValue name =>
    have henum := Derives.phrase (n := penumExpr) (by decide) (.enumValue name .nil) rfl
    exact .phrase (by decide) (.single henum) rfl
  | ident name => exact .phrase (by decide) (.ident name .nil) rfl

/-! ### Declarations -/

/-- A phrase in braces after other symbols. -/
theorem DerivesAll.braced {n : Nonterminal} {ls : List Lexeme} {v : Value}
    (h : Derives n.part ls v) :
    DerivesAll (bracedPart n) (inBraces ls)
      [.datum (.text Symbol.leftCurly.spelling), v, .datum (.text Symbol.rightCurly.spelling),
        .datum (.text Symbol.semicolon.spelling)] :=
  .mark .leftCurly (.cons h (.mark .rightCurly (.mark .semicolon .nil)))

theorem TypeDecl.Written.derives {d : TypeDecl} {ls : List Lexeme} (h : d.Written ls) :
    Derives typeDef.part ls (.datum d.datum) := by
  cases h with
  | objects name =>
    exact .phrase (by decide)
      (.ident name (.mark .colon (.word .objectWord (.mark .semicolon .nil)))) rfl
  | enumeration name hvalues =>
    exact .phrase (by decide)
      (.ident name (.mark .colon (.braced (derives_enumList hvalues)))) rfl

theorem RangeWritten.derives {range : String} {l : Lexeme} (h : RangeWritten range l) :
    Derives typeSpec.part [l] (.datum (.text range)) := by
  cases h with
  | ident => exact .phrase (by decide) (.ident range .nil) rfl
  | int => exact .phrase (by decide) (.word .intWord .nil) rfl
  | real => exact .phrase (by decide) (.word .realWord .nil) rfl
  | bool => exact .phrase (by decide) (.word .boolWord .nil) rfl

/-- What stands before the colon of a declaration does not change what stands behind it. -/
theorem derives_fluentDef (kind : FluentKind) (name : String) {params : Option (List String)}
    {body : List BodySymbol} {ps ls : List Lexeme} {vs : List Value} {range constant : Datum}
    (hbodies : (fluentDef kind).bodies =
      [[.ident, .mark .leftParen, paramList.part, .mark .rightParen] ++ body, .ident :: body])
    (hplain : PhraseAction.fluentDef kind (.datum (.text name) :: vs) =
      .ok (.datum (PhraseAction.declaration kind (.text name) range .absent constant)))
    (hwith : ∀ o p c,
      PhraseAction.fluentDef kind (.datum (.text name) :: o :: .datum p :: c :: vs) =
        .ok (.datum (PhraseAction.declaration kind (.text name) range p constant)))
    (hparams : ParamsWritten params ps) (hrest : DerivesAll body ls vs) :
    Derives (fluentDef kind).part (.ident name :: (ps ++ ls))
      (.datum (PhraseAction.declaration kind (.text name) range
        ((params.map Datum.texts).getD .absent) constant)) := by
  cases hparams with
  -- without a parameter list the second body applies, with one the first
  | none => exact .phrase (by simp [hbodies]) (.ident name hrest) hplain
  | some htypes =>
    have hlist := Derives.phrase (n := paramList) (by decide) (.single (derives_stringList htypes))
      rfl
    simp only [List.cons_append, List.append_assoc, List.nil_append]
    exact .phrase (by simp [hbodies])
      (.ident name (.mark .leftParen (.cons hlist (.mark .rightParen hrest)))) (hwith _ _ _)

theorem derives_valued {kind w : Keyword} {range : String} {c : Constant} {r : Lexeme}
    {ls : List Lexeme} (hrange : RangeWritten range r) (hc : c.Written ls) :
    DerivesAll ([.mark .colon, .mark .leftCurly, .word kind, .mark .comma, typeSpec.part] ++
        fluentValue w ++ [.mark .rightCurly, .mark .semicolon])
      (.symbol .colon :: .symbol .leftCurly :: .keyword kind :: .symbol .comma :: r ::
        ((.symbol .comma :: .keyword w :: .symbol .assign :: ls) ++
          [.symbol .rightCurly, .symbol .semicolon]))
      (List.map Value.datum [.text Symbol.colon.spelling, .text Symbol.leftCurly.spelling,
        .text kind.spelling, .text Symbol.comma.spelling, .text range,
        .text Symbol.comma.spelling, .text w.spelling, .text Symbol.assign.spelling, c.datum,
        .text Symbol.rightCurly.spelling, .text Symbol.semicolon.spelling]) :=
  .mark .colon (.mark .leftCurly (.word kind (.mark .comma (.cons hrange.derives
    (.mark .comma (.word w (.mark .assign (.cons hc.derives
      (.mark .rightCurly (.mark .semicolon .nil))))))))))

theorem PVarDecl.Written.derives {d : PVarDecl} {ls : List Lexeme} (h : d.Written ls) :
    Derives pvarDef.part ls (.datum d.pvariable.datum) := by
  cases h with
  | mk name hparams hrange hrole =>
    cases hrole with
    | nonFluent hc =>
      exact .phrase (by decide) (.single (derives_fluentDef .nonFluent name rfl rfl
        (fun _ _ _ => rfl) hparams (derives_valued hrange hc))) rfl
    | state hc =>
      exact .phrase (by decide) (.single (derives_fluentDef .state name rfl rfl
        (fun _ _ _ => rfl) hparams (derives_valued hrange hc))) rfl
    | action hc =>
      exact .phrase (by decide) (.single (derives_fluentDef .action name rfl rfl
        (fun _ _ _ => rfl) hparams (derives_valued hrange hc))) rfl
    | intermediate hc =>
      exact .phrase (by decide) (.single (derives_fluentDef .intermediate name rfl rfl
        (fun _ _ _ => rfl) hparams (derives_valued hrange hc))) rfl
    -- an observation has neither a default value nor a level
    | observation =>
      exact .phrase (by decide) (.single (derives_fluentDef .observation name rfl rfl
        (fun _ _ _ => rfl) hparams (.mark .colon (.mark .leftCurly (.word .observFluent
          (.mark .comma (.cons hrange.derives (.mark .rightCurly (.mark .semicolon .nil))))))))) rfl

theorem CpfDecl.Written.derives {d : CpfDecl} {ls : List Lexeme} (h : d.Written ls) :
    Derives cpfDef.part ls (.datum d.datum) := by
  cases h with
  | mk htarget hbody =>
    exact .phrase (by decide) (.cons htarget.derives (.mark .assign (.cons hbody.derives
      (.mark .semicolon .nil)))) rfl

theorem ConditionWritten.derives (which : Conditions) {test : Expr} {ls : List Lexeme}
    (h : ConditionWritten test ls) :
    Derives (conditionDef which).part ls (.datum test.datum) := by
  cases h with
  | mk htest =>
    exact .phrase (by simp [bodies]) (.cons htest.derives (.mark .semicolon .nil)) rfl

theorem ObjectsDecl.Written.derives {d : ObjectsDecl} {ls : List Lexeme} (h : d.Written ls) :
    Derives objectsDef.part ls (.datum d.datum) := by
  cases h with
  | mk type hobjects =>
    exact .phrase (by decide)
      (.ident type (.mark .colon (.braced (derives_objectConstList hobjects)))) rfl

theorem Assignment.Written.derives {a : Assignment} {ls : List Lexeme} (h : a.Written ls) :
    Derives pvarInstDef.part ls (.datum a.datum) := by
  cases h with
  -- six bodies: false, true or a value, each with and without arguments
  | negated name hargs =>
    cases hargs with
    | none =>
      exact .phrase (by decide) (.mark .tilde (.ident name (.mark .semicolon .nil))) rfl
    | some hargs =>
      simp only [List.cons_append, List.append_assoc, List.nil_append]
      exact .phrase (by decide) (.mark .tilde (.ident name (.mark .leftParen
        (.cons (derives_lconstList hargs) (.mark .rightParen (.mark .semicolon .nil)))))) rfl
  | plain name hargs =>
    cases hargs with
    | none => exact .phrase (by decide) (.ident name (.mark .semicolon .nil)) rfl
    | some hargs =>
      simp only [List.cons_append, List.append_assoc, List.nil_append]
      exact .phrase (by decide) (.ident name (.mark .leftParen
        (.cons (derives_lconstList hargs) (.mark .rightParen (.mark .semicolon .nil))))) rfl
  | valued name hargs hvalue =>
    cases hargs with
    | none =>
      exact .phrase (by decide) (.ident name (.mark .assign (.cons hvalue.derives
        (.mark .semicolon .nil)))) rfl
    | some hargs =>
      simp only [List.cons_append, List.append_assoc, List.nil_append]
      exact .phrase (by decide) (.ident name (.mark .leftParen (.cons (derives_lconstList hargs)
        (.mark .rightParen (.mark .assign (.cons hvalue.derives (.mark .semicolon .nil))))))) rfl

theorem Bound.Written.derives {b : Bound} {l : Lexeme} (h : b.Written l) :
    Derives posIntOrPosInf.part [l] (.datum b.datum) := by
  cases h with
  | finite count => exact .phrase (by decide) (.integer count .nil) rfl
  | unbounded => exact .phrase (by decide) (.word .posInf .nil) rfl

/-! ### Sections -/

/-- A section with its key, as a value. -/
def sectionValue (key : String) (d : Datum) : Value := .datum (.tuple [.text key, d])

/-- A section that gives one value. -/
theorem derives_assigned {n : Nonterminal} {w : Keyword} {s : BodySymbol} {key : String} {d : Datum}
    {ls : List Lexeme} (hbody : assignedBody w s ∈ n.bodies)
    (haction : n.action = PhraseAction.keyed key) (h : Derives s ls (.datum d)) :
    Derives n.part (.keyword w :: .symbol .assign :: (ls ++ [.symbol .semicolon]))
      (sectionValue key d) := by
  refine .phrase hbody (.word w (.mark .assign (.cons h (.mark .semicolon .nil)))) ?_
  rw [haction]
  rfl

/-- A section that gives a list in braces. -/
theorem derives_listed {n list : Nonterminal} {w : Keyword} {key : String} {d : Datum}
    {ls : List Lexeme} (hbody : .word w :: bracedPart list ∈ n.bodies)
    (haction : n.action = PhraseAction.keyed key) (h : Derives list.part ls (.datum d)) :
    Derives n.part (.keyword w :: inBraces ls) (sectionValue key d) := by
  refine .phrase hbody (.word w (.braced h)) ?_
  rw [haction]
  rfl

theorem derives_conditions (which : Conditions) {conditions : List Expr} {ls : List Lexeme}
    (h : Items ConditionWritten conditions ls) :
    Derives (conditionSection which).part (.keyword which.keyword :: inBraces ls)
      (sectionValue which.key (.list (conditions.map Expr.datum))) := by
  cases conditions with
  | nil =>
    cases h
    exact .phrase (by simp [bodies]) (.word which.keyword (.mark .leftCurly (.mark .rightCurly
      (.mark .semicolon .nil)))) rfl
  | cons first rest =>
    have hlist : Derives (conditionList which).part ls
        (.datum (.list ((first :: rest).map Expr.datum))) :=
      .itemsFromFirst (by simp [bodies, someOf])
        (by simp [bodies, someOf]) rfl (h.imp fun _ _ ht => ht.derives which)
    exact .phrase (by simp [bodies]) (.word which.keyword (.braced hlist)) rfl

theorem derives_objects {decls : List ObjectsDecl} {ls : List Lexeme}
    (h : Items ObjectsDecl.Written decls ls) :
    Derives objectsSection.part (.keyword .objects :: inBraces ls)
      (sectionValue "objects" (ObjectsDecl.sectionDatum decls)) := by
  have hlist : Derives objectsList.part ls (.datum (ObjectsDecl.sectionDatum decls)) := by
    cases decls with
    | nil =>
      cases h
      exact .phrase (by decide) (.single .empty) rfl
    | cons first rest =>
      exact .itemsFromFirst (by decide) (by decide) rfl (h.imp fun _ _ hd => hd.derives)
  exact derives_listed (by decide) rfl hlist

theorem derives_pvarInstList {first : Assignment} {rest : List Assignment} {ls : List Lexeme}
    (h : Items Assignment.Written (first :: rest) ls) :
    Derives pvarInstList.part ls (.datum (.list ((first :: rest).map Assignment.datum))) :=
  .itemsFromFirst (by decide) (by decide) rfl (h.imp fun _ _ ha => ha.derives)

def DomainSection.phrase : DomainSection → Nonterminal
  | .types _ => typeSection
  | .pvariables _ => pvarSection
  | .cpfs .. => cpfSection
  | .reward _ => rewardSection
  | .preconditions _ => conditionSection .preconditions
  | .constraints _ => conditionSection .constraints
  | .invariants _ => conditionSection .invariants

theorem derives_cpfs {header : Keyword} {decls : List CpfDecl} {ls : List Lexeme}
    (hheader : [.word header] ∈ cpfHeader.bodies) (h : Items CpfDecl.Written decls ls) :
    Derives cpfSection.part (.keyword header :: inBraces ls)
      (sectionValue "cpfs" (DomainSection.cpfs header decls).datum) := by
  have hlist : Derives cpfList.part ls (.datum (.list (decls.map CpfDecl.datum))) :=
    .itemsFromNone rfl rfl (h.imp fun _ _ hd => hd.derives)
  exact .phrase (by decide) (.cons (.phrase hheader (.word header .nil) rfl) (.braced hlist)) rfl

theorem DomainSection.Written.derives {s : DomainSection} {ls : List Lexeme} (h : s.Written ls) :
    Derives s.phrase.part ls (sectionValue s.key s.datum) := by
  cases h with
  | @types decls ls hdecls =>
    have hlist : Derives typeList.part ls (.datum (.list (decls.map TypeDecl.datum))) :=
      .itemsFromNone rfl rfl (hdecls.imp fun _ _ hd => hd.derives)
    exact derives_listed (n := typeSection) (by decide) rfl hlist
  | @pvariables decls ls hdecls =>
    have hlist : Derives pvarList.part ls
        (.datum (.list (decls.map fun d => d.pvariable.datum))) :=
      .itemsFromNone rfl rfl (hdecls.imp fun _ _ hd => hd.derives)
    exact derives_listed (n := pvarSection) (by decide) rfl hlist
  | cpfs hdecls => exact derives_cpfs (by decide) hdecls
  | cdfs hdecls => exact derives_cpfs (by decide) hdecls
  | reward hbody => exact derives_assigned (n := rewardSection) (by decide) rfl hbody.derives
  | preconditions hconditions => exact derives_conditions .preconditions hconditions
  | constraints hconditions => exact derives_conditions .constraints hconditions
  | invariants hconditions => exact derives_conditions .invariants hconditions

def NonFluentsSection.phrase : NonFluentsSection → Nonterminal
  | .domain _ => domainSection
  | .objects _ => objectsSection
  | .values _ => initNonFluentSection

theorem NonFluentsSection.Written.derives {s : NonFluentsSection} {ls : List Lexeme}
    (h : s.Written ls) : Derives s.phrase.part ls (sectionValue s.key s.datum) := by
  cases h with
  | domain name =>
    exact derives_assigned (n := domainSection) (by decide) rfl (IdentWritten.mk name).derives
  | objects hdecls => exact derives_objects hdecls
  | values hvalues =>
    exact derives_listed (n := initNonFluentSection) (by decide) rfl (derives_pvarInstList hvalues)

def InstanceSection.phrase : InstanceSection → Nonterminal
  | .domain _ => domainSection
  | .nonFluents _ => nonfluentsSection
  | .objects _ => objectsSection
  | .initialState _ => initStateSection
  | .maxActions _ => maxNondefActionsSection
  | .horizon _ => horizonSpecSection
  | .discount _ => discountSection

theorem Horizon.Written.derives {limit : Horizon} {ls : List Lexeme} (h : limit.Written ls) :
    Derives horizonSpecSection.part (.keyword .horizon :: ls)
      (sectionValue "horizon" limit.datum) := by
  cases h with
  | steps hcount =>
    exact .phrase (by decide) (.word .horizon (.mark .assign (.cons hcount.derives
      (.mark .semicolon .nil)))) rfl
  | condition htest =>
    exact .phrase (by decide) (.word .horizon (.mark .assign (.word .terminateWhen
      (.mark .leftParen (.cons htest.derives (.mark .rightParen .nil)))))) rfl

theorem InstanceSection.Written.derives {s : InstanceSection} {ls : List Lexeme}
    (h : s.Written ls) : Derives s.phrase.part ls (sectionValue s.key s.datum) := by
  cases h with
  | domain name =>
    exact derives_assigned (n := domainSection) (by decide) rfl (IdentWritten.mk name).derives
  | nonFluents name =>
    exact derives_assigned (n := nonfluentsSection) (by decide) rfl (IdentWritten.mk name).derives
  | objects hdecls => exact derives_objects hdecls
  | initialState hvalues =>
    exact derives_listed (n := initStateSection) (by decide) rfl (derives_pvarInstList hvalues)
  | maxActions hcount =>
    exact derives_assigned (n := maxNondefActionsSection) (by decide) rfl hcount.derives
  | horizon hlimit => exact hlimit.derives
  | discount factor =>
    exact derives_assigned (n := discountSection) (s := .terminal .real) (by decide) rfl
      (.token (.real factor))

/-! ### Blocks -/

theorem RequirementsWritten.derives {requirements : Option (List String)} {ls : List Lexeme}
    (h : RequirementsWritten requirements ls) :
    Derives reqSection.part ls (.datum ((requirements.map Datum.texts).getD .absent)) := by
  cases h with
  | none => exact .phrase (by decide) (.single .empty) rfl
  | plain hnames =>
    exact .phrase (by decide) (.word .requirements (.braced (derives_stringList hnames))) rfl
  | assigned hnames =>
    exact .phrase (by decide)
      (.word .requirements (.mark .assign (.braced (derives_stringList hnames)))) rfl

theorem derives_domainList {sections : List DomainSection} {ls : List Lexeme}
    (h : Items DomainSection.Written sections ls) :
    Derives domainList.part ls
      (.sections (Table.ofList (sections.map fun s => (s.key, s.datum)))) := by
  refine .sections ?_ (by decide) rfl
    (h.imp fun _ _ hs => hs.derives)
  intro s
  cases s <;> simp [DomainSection.phrase, bodies, sectionsOf]

theorem derives_nonfluentList {sections : List NonFluentsSection} {ls : List Lexeme}
    (h : Items NonFluentsSection.Written sections ls) :
    Derives nonfluentList.part ls
      (.sections (Table.ofList (sections.map fun s => (s.key, s.datum)))) := by
  refine .sections ?_ (by decide) rfl (h.imp fun _ _ hs => hs.derives)
  intro s
  cases s <;> simp [NonFluentsSection.phrase, bodies, sectionsOf]

theorem derives_instanceList {sections : List InstanceSection} {ls : List Lexeme}
    (h : Items InstanceSection.Written sections ls) :
    Derives instanceList.part ls
      (.sections (Table.ofList (sections.map fun s => (s.key, s.datum)))) := by
  refine .sections ?_ (by decide) rfl (h.imp fun _ _ hs => hs.derives)
  intro s
  cases s <;> simp [InstanceSection.phrase, bodies, sectionsOf]

/-- Attributes are set from the table of the sections as from the sections themselves. -/
theorem Attributes.extend_ofList (base : Attributes) (sections : List (String × Datum)) :
    base.extend (Table.ofList sections).entries = base.extend sections :=
  Table.foldl_insert_entries_ofList base sections

def Block.phrase : Block → Nonterminal
  | .domain _ => domainBlock
  | .nonFluents _ => nonfluentBlock
  | .problem _ => instanceBlock

inductive Block.Valued : Block → String × BlockValue → Prop
  | domain {b d} : Domain.ofBlock b = .ok d → Block.Valued (.domain b) ("domain", .domain d)
  | nonFluents (b : NonFluentsBlock) : Block.Valued (.nonFluents b) ("non_fluents",
      .attributes (.nonFluents (.text b.name) (b.sections.map fun s => (s.key, s.datum))))
  | problem (b : InstanceBlock) : Block.Valued (.problem b) ("instance",
      .attributes (.problem (.text b.name) (b.sections.map fun s => (s.key, s.datum))))

theorem Block.Written.derives {b : Block} {e : String × BlockValue} {ls : List Lexeme}
    (h : b.Written ls) (hvalue : b.Valued e) : Derives b.phrase.part ls (.block e.1 e.2) := by
  cases h with
  | domain name hrequirements hsections =>
    cases hvalue with
    | domain hblock =>
      refine .phrase (n := domainBlock) (by decide) (.word .domain (.ident name (.mark .leftCurly
        (.cons hrequirements.derives (.cons (derives_domainList hsections)
          (.mark .rightCurly .nil)))))) ?_
      -- the value of a domain is made of its sections, if it has those that it needs
      change Except.bind (Domain.ofBlock ⟨name, _, _⟩)
        (fun d => .ok (Value.block "domain" (.domain d))) = _
      rw [hblock]
      rfl
  | nonFluents name hsections =>
    cases hvalue with
    | nonFluents =>
      refine .phrase (n := nonfluentBlock) (by decide) (.word .nonFluents (.ident name
        (.mark .leftCurly (.cons (derives_nonfluentList hsections) (.mark .rightCurly .nil))))) ?_
      -- the attributes are set section after section, as in the table of the sections
      change Except.ok (Value.block "non_fluents" (.attributes (Attributes.extend _ _))) = _
      rw [Attributes.extend_ofList]
      rfl
  | problem name hsections =>
    cases hvalue with
    | problem =>
      refine .phrase (n := instanceBlock) (by decide) (.word .instanceWord (.ident name
        (.mark .leftCurly (.cons (derives_instanceList hsections) (.mark .rightCurly .nil))))) ?_
      change Except.ok (Value.block "instance" (.attributes (Attributes.extend _ _))) = _
      rw [Attributes.extend_ofList]
      rfl

/-! ### Documents -/

def Document.Entries (d : Document) (es : List (String × BlockValue)) : Prop :=
  List.Forall₂ Block.Valued d es

theorem Block.phrase_mem_bodies (b : Block) :
    [rddlBlock.part, b.phrase.part] ∈ rddlBlock.bodies := by
  cases b <;> simp [phrase, bodies, sectionsOf]

/-- Items with values are spelled as the items are. -/
theorem Items.forall₂ {α β : Type} {W : α → List Lexeme → Prop} {V : β → List Lexeme → Prop}
    {R : α → β → Prop} {as : List α} {bs : List β} {ls : List Lexeme} (h : Items W as ls)
    (hR : List.Forall₂ R as bs) (hV : ∀ a b l, W a l → R a b → V b l) : Items V bs ls := by
  induction h generalizing bs with
  | nil =>
    cases hR
    exact .nil
  | cons ha _ ih =>
    cases hR with
    | cons hab hR => exact .cons (hV _ _ _ ha hab) (ih hR)

theorem derives_rddlBlock {d : Document} {es : List (String × BlockValue)} {ls : List Lexeme}
    (h : d.Written ls) (hes : d.Entries es) :
    Derives rddlBlock.part ls (.blocks (Table.ofList es)) := by
  have hempty : Derives rddlBlock.part [] (.blocks .empty) :=
    .phrase (by decide) (.single .empty) rfl
  have hblocks : Items (fun e l => ∃ s, [rddlBlock.part, s] ∈ rddlBlock.bodies ∧
      Derives s l (.block e.1 e.2)) es ls :=
    Items.forall₂ h hes fun b e l hb he => ⟨_, b.phrase_mem_bodies, hb.derives he⟩
  exact .growing .blocks _ (fun t e => rfl) hblocks hempty

/-- Every block of a document with a model has a value, and the last domain is found. -/
theorem Document.exists_entries_of_domain? {d : Document} {domain? : Option Domain}
    (h : d.domain? = .ok domain?) :
    ∃ es, d.Entries es ∧ (Table.ofList es).find? "domain" = domain?.map .domain := by
  induction d generalizing domain? with
  | nil =>
    simp only [Document.domain?, Except.ok.injEq] at h
    exact ⟨[], .nil, by rw [← h]; rfl⟩
  | cons b rest ih =>
    cases b with
    -- a later domain replaces this one
    | domain b =>
      simp only [Document.domain?, except_bind_eq_ok, Except.ok.injEq] at h
      obtain ⟨first, hfirst, last, hlast, rfl⟩ := h
      obtain ⟨es, hes, hfind⟩ := ih hlast
      refine ⟨_, .cons (.domain hfirst) hes, ?_⟩
      rw [Table.find?_ofList_cons, hfind]
      cases last <;> rfl
    -- blocks of the other kinds stand under other keys
    | nonFluents b =>
      obtain ⟨es, hes, hfind⟩ := ih h
      refine ⟨_, .cons (.nonFluents b) hes, ?_⟩
      rw [Table.find?_ofList_cons, hfind]
      cases domain? <;> rfl
    | problem b =>
      obtain ⟨es, hes, hfind⟩ := ih h
      refine ⟨_, .cons (.problem b) hes, ?_⟩
      rw [Table.find?_ofList_cons, hfind]
      cases domain? <;> rfl

/-- The last block of one kind is found under its key. -/
theorem Document.Entries.find?_eq {d : Document} {es : List (String × BlockValue)} {key : String}
    {attributes? : Block → Option Attributes}
    (hkey : ∀ b e, b.Valued e →
      (if e.1 == key then some e.2 else none) = (attributes? b).map .attributes)
    (h : d.Entries es) :
    (Table.ofList es).find? key = (d.reverse.findSome? attributes?).map .attributes := by
  induction h with
  | nil => rfl
  | cons hvalue _ ih =>
    rw [Table.find?_ofList_cons, ih, hkey _ _ hvalue, List.reverse_cons, List.findSome?_append]
    generalize List.findSome? _ (List.reverse _) = last
    cases last <;> simp

theorem Document.Entries.find?_nonFluents {d : Document} {es : List (String × BlockValue)}
    (h : d.Entries es) :
    (Table.ofList es).find? "non_fluents" = d.nonFluents?.map .attributes := by
  refine h.find?_eq ?_
  intro b e hvalue
  cases hvalue <;> rfl

theorem Document.Entries.find?_problem {d : Document} {es : List (String × BlockValue)}
    (h : d.Entries es) :
    (Table.ofList es).find? "instance" = d.problem?.map .attributes := by
  refine h.find?_eq ?_
  intro b e hvalue
  cases hvalue <;> rfl

theorem Document.exists_entries_of_model {d : Document} {m : Model} (h : d.model = .ok m) :
    ∃ es, d.Entries es ∧ BlockValue.model (Table.ofList es) = .ok m := by
  simp only [Document.model, except_bind_eq_ok] at h
  obtain ⟨domain?, hdomain, h⟩ := h
  obtain ⟨es, hes, hfind⟩ := exists_entries_of_domain? hdomain
  refine ⟨es, hes, ?_⟩
  have hnonFluents := hes.find?_nonFluents
  have hproblem := hes.find?_problem
  unfold Model.ofBlocks at h
  split at h <;> cases h
  next hsome hsome' =>
    rw [hsome] at hnonFluents
    rw [hsome'] at hproblem
    simp [BlockValue.model, Table.require, hfind, hnonFluents, hproblem, bind, Except.bind]

/-- **A written document is derived from the start symbol, and its model is the value.** -/
theorem Document.Written.derives {d : Document} {m : Model} {ls : List Lexeme}
    (h : d.Written ls) (hm : d.model = .ok m) : Derives rddl.part ls (.model m) := by
  obtain ⟨es, hes, hvalue⟩ := Document.exists_entries_of_model hm
  refine .phrase (by decide) (.single (derives_rddlBlock h hes)) ?_
  change Except.bind (BlockValue.model _) (fun m => .ok (Value.model m)) = _
  rw [hvalue]
  rfl

/-! ### Texts -/

/-- **Soundness of reading.**  The tokens of a text that gives a model without a syntax
    error, all of them and in their order, are the yield of a derivation tree from the
    start symbol, and the model is the value of that tree. -/
theorem Reading.exists_derivation_of_clean {line : Nat} {text : String} {m : Model}
    (h : (Reading.ofText line text).verdict = .model m)
    (hclean : (Reading.ofText line text).Clean) :
    (Scan.ofText line text).fault? = none ∧
      (Scan.ofText line text).lexemes.map Lexeme.terminal ∈ grammar.language ∧
      ∃ t : ParseTree, t.Applies ∧ t.root = .nonterminal .rddl ∧
        t.yield = (Scan.ofText line text).lexemes ∧ t.value = .ok (.model m) := by
  obtain ⟨d, hwritten, hmodel, hfault⟩ := exists_document_of_clean h hclean
  obtain ⟨t, happlies, hroot, hyield, hvalue⟩ := hwritten.derives hmodel
  refine ⟨hfault, ?_, t, happlies, hroot, hyield, hvalue⟩
  rw [← hyield]
  exact ParseTree.types_mem_language happlies hroot

/-- A text with every kind of block and several kinds of sections and expressions. -/
def robotText : String := "domain robot \x7b
  requirements = \x7b reward-deterministic \x7d;
  types \x7b cell : object; mode : \x7b @idle, @busy \x7d; \x7d;
  pvariables \x7b
    NEAR(cell, cell) : \x7b non-fluent, bool, default = false \x7d;
    at(cell) : \x7b state-fluent, bool, default = false \x7d;
    move(cell) : \x7b action-fluent, bool, default = false \x7d;
  \x7d;
  cpfs \x7b
    at'(?c) = if (exists_\x7b?d : cell\x7d [at(?d) ^ NEAR(?d, ?c)])
      then Bernoulli(0.5) else ~move(?c);
  \x7d;
  reward = -1 + 2 * sum_\x7b?c : cell\x7d at(?c);
  action-preconditions \x7b forall_\x7b?c : cell\x7d move(?c) => ~at(?c); \x7d;
\x7d
non-fluents near \x7b
  domain = robot;
  objects \x7b cell : \x7b c1, c2 \x7d; \x7d;
  non-fluents \x7b NEAR(c1, c2); \x7d;
\x7d
instance first \x7b
  domain = robot;
  non-fluents = near;
  init-state \x7b at(c1); \x7d;
  max-nondef-actions = 1;
  horizon = 10;
  discount = 1.0;
\x7d"

theorem Reading.derivation_of_robotText :
    ∃ m, (Reading.ofText 1 robotText).verdict = .model m ∧
      (Reading.ofText 1 robotText).Clean ∧
      ∃ t : ParseTree, t.Applies ∧ t.root = .nonterminal .rddl ∧
        t.yield = (Scan.ofText 1 robotText).lexemes ∧ t.value = .ok (.model m) := by
  have hread : (Reading.ofText 1 robotText).verdict.model?.isSome = true ∧
      ∀ m ∈ (Reading.ofText 1 robotText).log, m.isError = false := by
    rw [robotText, Reading.ofText_eq_ofScan 1 rfl]
    decide +kernel
  obtain ⟨m, hmodel⟩ := Option.isSome_iff_exists.mp hread.1
  have hverdict := Verdict.eq_model_of_model? hmodel
  obtain ⟨-, -, t, ht⟩ := exists_derivation_of_clean hverdict hread.2
  exact ⟨m, hverdict, hread.2, t, ht⟩

end Rddl
