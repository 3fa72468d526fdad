/-
  Rddl/Proofs/Declarations.lean
  =============================
  **Declarations are read back as they are written.**

  Types, variables, objects and values are written out as the sections of a document with
  nothing else in it.  Whatever the layout, and however numbers are spelled, the text is
  read without a syntax error, and the model has exactly the declarations that were
  written, unless an integer has too many digits (`Reading.declarations_read_back`).
-/
import Rddl.Proofs.Domain.Declared
import Rddl.Proofs.RoundTrip
import Rddl.Proofs.Syntax.Writable

namespace Rddl

open Lexeme

/-! ### Documents of declarations -/

/-- What a document declares, and the names of its blocks. -/
structure Declarations where
  domain : String
  types : List TypeDecl
  pvariables : List PVarDecl
  nonFluents : String
  objects : List ObjectsDecl
  values : List Assignment
  problem : String
  problemObjects : List ObjectsDecl
  initial : List Assignment

namespace Declarations

/-- The document of declarations, which has no functions and no reward worth having. -/
def document (p : Declarations) : Document :=
  [.domain ⟨p.domain, none,
      [.types p.types, .pvariables p.pvariables, .cpfs .cpfs [], .reward (.integer 0)]⟩,
    .nonFluents ⟨p.nonFluents, [.objects p.objects, .values p.values]⟩,
    .problem ⟨p.problem, [.objects p.problemObjects, .initialState p.initial]⟩]

def constants (p : Declarations) : List Constant :=
  p.pvariables.filterMap (fun d => d.role.constant?) ++ (p.values ++ p.initial).map Assignment.value

/-- Declarations over valid names.  Objects and values have at least one declaration each. -/
structure IsValid (p : Declarations) : Prop where
  names : isIdentifier p.domain = true ∧ isIdentifier p.nonFluents = true ∧
    isIdentifier p.problem = true
  types : ∀ d ∈ p.types, d.isValid = true
  pvariables : ∀ d ∈ p.pvariables, d.isValid = true
  objects : p.objects ≠ [] ∧ ∀ d ∈ p.objects, d.isValid = true
  values : p.values ≠ [] ∧ ∀ a ∈ p.values, a.isValid = true
  problemObjects : p.problemObjects ≠ [] ∧ ∀ d ∈ p.problemObjects, d.isValid = true
  initial : p.initial ≠ [] ∧ ∀ a ∈ p.initial, a.isValid = true
  constants : ∀ k ∈ p.constants, k.IsValid

def IsShort (p : Declarations) : Prop :=
  ∀ n, .integer n ∈ p.constants → n.natAbs < 10 ^ digitLimit

theorem value_mem_constants (p : Declarations) {a : Assignment} (h : a ∈ p.values ++ p.initial) :
    a.value ∈ p.constants :=
  List.mem_append_right _ (List.mem_map_of_mem h)

theorem constant_mem_constants (p : Declarations) {d : PVarDecl} {k : Constant}
    (hd : d ∈ p.pvariables) (hk : d.role.constant? = some k) : k ∈ p.constants :=
  List.mem_append_left _ (List.mem_filterMap.mpr ⟨d, hd, hk⟩)

variable {p : Declarations}

theorem document_wellShaped : p.document.isWellShaped = true := rfl

theorem canBeWritten (h : p.IsValid) : CanBeWritten p.IsShort Document.Written p.document := by
  have hconstant : ∀ k ∈ p.constants, CanBeWritten p.IsShort Constant.Written k :=
    fun k hk => .constant (h.constants k hk) fun hshort n hn => hshort n (hn ▸ hk)
  have hassignment : ∀ a ∈ p.values ++ p.initial, a.isValid = true →
      CanBeWritten p.IsShort Assignment.Written a :=
    fun a ha hvalid => .assignment hvalid (hconstant _ (p.value_mem_constants ha))
  obtain ⟨hdomain, hnonFluents, hproblem⟩ := h.names
  -- section by section, with the words of each; then the sections are put into their blocks
  obtain ⟨ts, htypes, hts⟩ := CanBeWritten.items fun d hd =>
    CanBeWritten.typeDecl (S := p.IsShort) (h.types d hd)
  obtain ⟨vs, hvariables, hvs⟩ := CanBeWritten.items fun d hd =>
    CanBeWritten.pvarDecl (h.pvariables d hd) fun k hk =>
      hconstant k (p.constant_mem_constants hd hk)
  obtain ⟨os, hobjects, hos⟩ := CanBeWritten.items fun d hd =>
    CanBeWritten.objectsDecl (S := p.IsShort) (h.objects.2 d hd)
  obtain ⟨as, hvalues, has⟩ := CanBeWritten.items fun a ha =>
    hassignment a (List.mem_append_left _ ha) (h.values.2 a ha)
  obtain ⟨os', hobjects', hos'⟩ := CanBeWritten.items fun d hd =>
    CanBeWritten.objectsDecl (S := p.IsShort) (h.problemObjects.2 d hd)
  obtain ⟨as', hinitial, has'⟩ := CanBeWritten.items fun a ha =>
    hassignment a (List.mem_append_right _ ha) (h.initial.2 a ha)
  have hnonFluentsSections : Items NonFluentsSection.Written
      [.objects p.objects, .values p.values] _ :=
    .cons (.objects hobjects) (.cons (.of_values h.values.1 hvalues) .nil)
  have hproblemSections : Items InstanceSection.Written
      [.objects p.problemObjects, .initialState p.initial] _ :=
    .cons (.objects hobjects') (.cons (.of_initial h.initial.1 hinitial) .nil)
  have hdomainSections : Items DomainSection.Written
      [.types p.types, .pvariables p.pvariables, .cpfs .cpfs [], .reward (.integer 0)] _ :=
    .cons (.types htypes) (.cons (.pvariables hvariables)
      (.cons (.cpfs .nil) (.cons (.reward (.integer 0)) .nil)))
  refine ⟨_, .cons (.domain p.domain .none hdomainSections)
    (.cons (.nonFluents p.nonFluents hnonFluentsSections)
      (.cons (.problem p.problem hproblemSections) .nil)), ?_⟩
  have hzero : HasSpelling p.IsShort (.integer 0) := .integer fun _ => Nat.pow_pos (by decide)
  simp [HasSpelling.ident hdomain, HasSpelling.ident hnonFluents, HasSpelling.ident hproblem, hzero,
    hts, hvs, hos, has, hos', has']

end Declarations

/-! ### Declarations of a model -/

/-- A model that holds declarations, each list under its own name and in its own order. -/
structure Model.Declares (m : Model) (p : Declarations) : Prop where
  domain : m.domain.name = .text p.domain
  types : m.domain.types = .list (p.types.map TypeDecl.datum)
  pvariables : m.domain.pvariables = .list (p.pvariables.map fun d => d.pvariable.datum)
  nonFluents : m.nonFluents.find? "name" = some (.text p.nonFluents)
  objects : m.nonFluents.find? "objects" = some (.list (p.objects.map ObjectsDecl.datum))
  values : m.nonFluents.find? "init_non_fluent" = some (.list (p.values.map Assignment.datum))
  problem : m.problem.find? "name" = some (.text p.problem)
  problemObjects : m.problem.find? "objects" =
    some (.list (p.problemObjects.map ObjectsDecl.datum))
  initial : m.problem.find? "init_state" = some (.list (p.initial.map Assignment.datum))

theorem ObjectsDecl.sectionDatum_of_ne {ds : List ObjectsDecl} (h : ds ≠ []) :
    sectionDatum ds = .list (ds.map datum) :=
  if_neg (by simpa using h)

namespace Declarations

variable {p q : Declarations}

theorem exists_model (h : p.IsValid) : ∃ m, p.document.model = .ok m ∧ m.Declares p := by
  refine ⟨_, rfl, rfl, rfl, rfl, rfl, ?_, rfl, rfl, ?_, rfl⟩
  · exact congrArg some (ObjectsDecl.sectionDatum_of_ne h.objects.1)
  · exact congrArg some (ObjectsDecl.sectionDatum_of_ne h.problemObjects.1)

end Declarations

/-! ### Nothing is lost in a model -/

theorem Datum.texts_inj {xs ys : List String} (h : texts xs = texts ys) : xs = ys := by
  rw [texts, texts, Datum.list.injEq] at h
  exact eq_of_map_eq (fun a _ b _ hab => Datum.text.inj hab) h

theorem isIdentifier_spelling (k : Keyword) : isIdentifier k.spelling = false := by
  simp [isIdentifier, k.ofSpelling?_spelling]

theorem isEnumName_spelling (k : Keyword) : isEnumName k.spelling = false := by
  cases k <;> rfl

theorem isEnumName_of_isIdentifier {name : String} (h : isIdentifier name = true) :
    isEnumName name = false := by
  rw [isIdentifier, Bool.and_eq_true] at h
  obtain ⟨c, run, prime, hname, halpha, -, -⟩ := exists_of_isWord h.1
  have hc : c ≠ '@' := by
    rintro rfl
    exact absurd halpha (by decide)
  simp [isEnumName, hname, hc]

theorem Constant.datum_inj {k k' : Constant} (hk : k.IsValid) (hk' : k'.IsValid)
    (h : k.datum = k'.datum) : k = k' := by
  have hinf : Keyword.posInf.spelling ≠ Keyword.negInf.spelling := by decide
  have hreserved := isIdentifier_spelling
  have hreserved' := isEnumName_spelling
  have henum := @isEnumName_of_isIdentifier
  cases k <;> cases k' <;> simp only [Constant.datum, IsValid] at h hk hk' <;> grind

theorem TypeDecl.datum_inj {d d' : TypeDecl} (h : d.datum = d'.datum) : d = d' := by
  obtain ⟨name, body⟩ := d
  obtain ⟨name', body'⟩ := d'
  cases body with
  | objects => cases body' <;> simp_all [TypeDecl.datum, Datum.texts]
  | enumeration values =>
    cases body' with
    | objects => simp [TypeDecl.datum, Datum.texts] at h
    | enumeration values' =>
      simp only [TypeDecl.datum, Datum.tuple.injEq, List.cons.injEq, Datum.text.injEq] at h
      rw [h.1, Datum.texts_inj h.2.1]

theorem optionalTexts_inj {xs? ys? : Option (List String)}
    (h : (xs?.map Datum.texts).getD .absent = (ys?.map Datum.texts).getD .absent) : xs? = ys? := by
  cases xs? with
  | none => cases ys? <;> simp_all [Datum.texts]
  | some xs =>
    cases ys? with
    | none => simp [Datum.texts] at h
    | some ys => rw [Datum.texts_inj h]

theorem Role.eq_of_datum_eq {r r' : Role} (hr : ∀ k, r.constant? = some k → k.IsValid)
    (hr' : ∀ k, r'.constant? = some k → k.IsValid) (hkind : r.kind = r'.kind)
    (hdefault : r.default = r'.default) (hlevel : r.level = r'.level) : r = r' := by
  cases r with
  | nonFluent k =>
    cases r' <;> cases hkind
    rw [Constant.datum_inj (hr k rfl) (hr' _ rfl) hdefault]
  | state k =>
    cases r' <;> cases hkind
    rw [Constant.datum_inj (hr k rfl) (hr' _ rfl) hdefault]
  | action k =>
    cases r' <;> cases hkind
    rw [Constant.datum_inj (hr k rfl) (hr' _ rfl) hdefault]
  | intermediate k =>
    cases r' <;> cases hkind
    rw [Constant.datum_inj (hr k rfl) (hr' _ rfl) hlevel]
  | observation =>
    cases r' <;> cases hkind
    rfl

theorem PVarDecl.datum_inj {d d' : PVarDecl}
    (hd : ∀ k, d.role.constant? = some k → k.IsValid)
    (hd' : ∀ k, d'.role.constant? = some k → k.IsValid)
    (h : d.pvariable.datum = d'.pvariable.datum) : d = d' := by
  obtain ⟨name, params, range, role⟩ := d
  obtain ⟨name', params', range', role'⟩ := d'
  simp only [PVariable.datum, pvariable, Datum.pvariable.injEq, Datum.text.injEq] at h
  obtain ⟨rfl, hkind, rfl, hparams, hdefault, hlevel⟩ := h
  have hrole : role = role' := Role.eq_of_datum_eq hd hd'
    (FluentKind.spelling_inj.mp hkind) hdefault hlevel
  rw [optionalTexts_inj hparams, hrole]

theorem ObjectsDecl.datum_inj {d d' : ObjectsDecl} (h : d.datum = d'.datum) : d = d' := by
  obtain ⟨type, objects⟩ := d
  obtain ⟨type', objects'⟩ := d'
  simp only [ObjectsDecl.datum, Datum.tuple.injEq, List.cons.injEq, Datum.text.injEq] at h
  rw [h.1, Datum.texts_inj h.2.1]

theorem Assignment.datum_inj {a a' : Assignment} (ha : a.value.IsValid)
    (ha' : a'.value.IsValid) (h : a.datum = a'.datum) : a = a' := by
  obtain ⟨name, args, value⟩ := a
  obtain ⟨name', args', value'⟩ := a'
  simp only [Assignment.datum, Datum.tuple.injEq, List.cons.injEq, Datum.text.injEq] at h
  obtain ⟨⟨rfl, hargs, -⟩, hvalue, -⟩ := h
  have hvalue : value = value' := Constant.datum_inj ha ha' hvalue
  rw [optionalTexts_inj hargs, hvalue]

/-- **A model holds one set of declarations only.** -/
theorem Model.Declares.inj {m : Model} {p q : Declarations} (hp : m.Declares p)
    (hq : m.Declares q) (hvalid : p.IsValid) (hvalid' : q.IsValid) : p = q := by
  have htypes := Datum.list.inj (hp.types.symm.trans hq.types)
  have hpvariables := Datum.list.inj (hp.pvariables.symm.trans hq.pvariables)
  have hobjects := Datum.list.inj (Option.some.inj (hp.objects.symm.trans hq.objects))
  have hvalues := Datum.list.inj (Option.some.inj (hp.values.symm.trans hq.values))
  have hobjects' :=
    Datum.list.inj (Option.some.inj (hp.problemObjects.symm.trans hq.problemObjects))
  have hinitial := Datum.list.inj (Option.some.inj (hp.initial.symm.trans hq.initial))
  have hdomain := Datum.text.inj (hp.domain.symm.trans hq.domain)
  have hnonFluents := Datum.text.inj (Option.some.inj (hp.nonFluents.symm.trans hq.nonFluents))
  have hproblem := Datum.text.inj (Option.some.inj (hp.problem.symm.trans hq.problem))
  -- a datum tells its declaration, since no valid name is spelled as an infinity
  have htypes := eq_of_map_eq (fun d _ d' _ => TypeDecl.datum_inj) htypes
  have hpvariables := eq_of_map_eq (fun d hd d' hd' => PVarDecl.datum_inj
    (fun k hk => hvalid.constants k (p.constant_mem_constants hd hk))
    (fun k hk => hvalid'.constants k (q.constant_mem_constants hd' hk))) hpvariables
  have hobjects := eq_of_map_eq (fun d _ d' _ => ObjectsDecl.datum_inj) hobjects
  have hvalues := eq_of_map_eq (fun a ha a' ha' => Assignment.datum_inj
    (hvalid.constants _ (p.value_mem_constants (List.mem_append_left _ ha)))
    (hvalid'.constants _ (q.value_mem_constants (List.mem_append_left _ ha')))) hvalues
  have hobjects' := eq_of_map_eq (fun d _ d' _ => ObjectsDecl.datum_inj) hobjects'
  have hinitial := eq_of_map_eq (fun a ha a' ha' => Assignment.datum_inj
    (hvalid.constants _ (p.value_mem_constants (List.mem_append_right _ ha)))
    (hvalid'.constants _ (q.value_mem_constants (List.mem_append_right _ ha')))) hinitial
  cases p
  cases q
  simp_all

/-! ### Round trip -/

namespace Reading

variable {line : Nat} {text : String} {p : Declarations} {ls : List Lexeme}

/-- A reading gives back exactly the declarations, and reports no syntax error. -/
def GivesBack (r : Reading) (p : Declarations) : Prop :=
  r.Clean ∧ ∃ m, r.verdict = .model m ∧ ∀ q : Declarations, q.IsValid → (m.Declares q ↔ q = p)

theorem givesBack_of_lexemes (hp : p.IsValid) (hwritten : p.document.Written ls)
    (hlexemes : (Scan.ofText line text).lexemes = ls)
    (hfault : (Scan.ofText line text).fault? = none) : (ofText line text).GivesBack p := by
  obtain ⟨m, hmodel, hm⟩ := Declarations.exists_model hp
  have hspelled : p.document.IsSpelledBy (Scan.ofText line text) :=
    Document.isSpelledBy_of_eq hwritten Declarations.document_wellShaped ⟨hlexemes, hfault⟩
  obtain ⟨hverdict, hclean⟩ := verdict_of_spelled hspelled
  rw [hmodel] at hverdict
  refine ⟨hclean, m, hverdict, fun q hq => ⟨fun hdeclares => ?_, ?_⟩⟩
  · exact hdeclares.inj hm hq hp
  · rintro rfl
    exact hm

/-- **Declarations are read back as they are written.**  Declarations over valid names can be
    written out, without too long integers if none is too large.  Every text that spells
    them out is read without a syntax error, and the model has exactly these declarations.
    Where the words are laid out with gaps between them, this fails only if one of them is
    an integer with too many digits. -/
theorem declarations_read_back (hp : p.IsValid) :
    (∃ ls words text, p.document.Written ls ∧ AllSpelled ls words ∧
      Layout words (String.toList text) ∧ (p.IsShort → ∀ w ∈ words, isOverlong w = false)) ∧
    ∀ line text ls, p.document.Written ls →
      ((Scan.ofText line text).lexemes = ls → (Scan.ofText line text).fault? = none →
        (ofText line text).GivesBack p) ∧
      ∀ words, AllSpelled ls words → Layout words text.toList →
        ((ofText line text).GivesBack p ↔ ∀ w ∈ words, isOverlong w = false) := by
  constructor
  · obtain ⟨ls, hwritten, hls⟩ := Declarations.canBeWritten hp
    obtain ⟨words, hwords, hshort⟩ := exists_allSpelled hls
    refine ⟨ls, words, String.ofList (Layout.spaced words), hwritten, hwords, ?_, hshort⟩
    rw [String.toList_ofList]
    exact Layout.of_spaced words
  · intro line text ls hwritten
    refine ⟨givesBack_of_lexemes hp hwritten, fun words hwords hlayout => ?_⟩
    obtain ⟨-, hfault, hlexemes⟩ := Scan.walk_layout hlayout hwords line 0
    have hnone : (∀ w ∈ words, isOverlong w = false) ↔ words.find? isOverlong = none := by
      simp [List.find?_eq_none]
    rw [hnone]
    constructor
    · -- a model that is read without an error is read from all words, so none of them was too
      -- long
      rintro ⟨hclean, m, hm, -⟩
      obtain ⟨d, -, -, hsound⟩ := exists_document_of_clean hm hclean
      exact Option.map_eq_none_iff.mp (hfault.symm.trans hsound)
    · intro hshort
      rw [hshort] at hfault
      exact givesBack_of_lexemes hp hwritten (hlexemes hshort) hfault

end Reading

/-- Declarations of all kinds, with an empty enumeration, an empty list of parameters, a
    negative level and a value that has to be written as a decimal. -/
def sampleDeclarations : Declarations where
  domain := "d"
  types := [⟨"size", .enumeration ["@small", "@x-large"]⟩, ⟨"void", .enumeration []⟩,
    ⟨"place", .objects⟩]
  pvariables := [⟨"COST", some ["size", "place"], "real", .nonFluent .positiveInfinity⟩,
    ⟨"at", none, "size", .state (.enumValue "@small")⟩,
    ⟨"stay", some [], "bool", .action (.truth false)⟩,
    ⟨"near'", some ["place"], "place", .intermediate (.integer (-1))⟩,
    ⟨"seen", none, "int", .observation⟩]
  nonFluents := "n"
  objects := [⟨"place", ["home", "here"]⟩, ⟨"size", ["s"]⟩]
  values := [⟨"COST", some ["@small", "home"], .real (.ofDecimal false 25 (-1))⟩,
    ⟨"OPEN", none, .truth true⟩]
  problem := "i"
  problemObjects := [⟨"place", ["home"]⟩]
  initial := [⟨"stay", none, .truth false⟩, ⟨"at", some ["here"], .ident "s"⟩]

/-- A text that spells the declarations, with comments and without needless blanks. -/
def sampleDeclarationsText : String := "domain d \x7b
  types \x7b size:\x7b@small, @x-large\x7d; void : \x7b \x7d; place : object; \x7d; // three types
  pvariables \x7b
    COST(size,place): \x7b non-fluent, real, default = pos-inf \x7d;
    at : \x7b state-fluent, size, default = @small \x7d;
    stay() : \x7b action-fluent, bool, default = false \x7d;
    near'(place) : \x7b interm-fluent, place, level = -1 \x7d;
    seen : \x7b observ-fluent, int \x7d; \x7d;
  cpfs\x7b\x7d; reward=0; \x7d
non-fluents n \x7b objects \x7b place : \x7bhome, here\x7d; size : \x7bs\x7d; \x7d;
  non-fluents \x7b COST(@small, home) = 2.5; OPEN; \x7d; \x7d
instance i \x7b objects \x7b place : \x7bhome\x7d; \x7d;
  init-state \x7b ~stay; at(here) = s; \x7d; \x7d"

theorem sampleDeclarations_isValid : sampleDeclarations.IsValid where
  names := by decide +kernel
  types := by decide +kernel
  pvariables := by decide +kernel
  objects := by decide +kernel
  values := by decide +kernel
  problemObjects := by decide +kernel
  initial := by decide +kernel
  constants := by
    have hcost : Constant.IsValid (.real (.ofDecimal false 25 (-1))) :=
      ⟨_, ⟨_, @Spelled.real ['2'] ['5'] rfl rfl⟩, .inl rfl⟩
    have hsmall : isEnumName "@small" = true := by decide +kernel
    have hobject : isIdentifier "s" = true := by decide +kernel
    simpa [sampleDeclarations, Declarations.constants, Role.constant?, Constant.IsValid, hsmall,
      hobject] using hcost

theorem sampleDeclarations_written : ∃ ls, sampleDeclarations.document.Written ls ∧
    (Scan.ofText 1 sampleDeclarationsText).lexemes = ls ∧
    (Scan.ofText 1 sampleDeclarationsText).fault? = none := by
  -- the constructors follow the text from left to right
  refine ⟨_, .cons (.domain "d" .none
      (.cons (.types (.cons
        (.enumeration "size" (.plain (.mk "@small") (.cons (.mk "@x-large") .nil)))
        (.cons (.enumeration "void" .nil) (.cons (.objects "place") .nil))))
      (.cons (.pvariables
        (.cons (.mk "COST" (.some (.plain (.mk "size") (.cons (.mk "place") .nil))) .real
          (.nonFluent .positiveInfinity))
        (.cons (.mk "at" .none (.ident "size") (.state (.enumValue "@small")))
        (.cons (.mk "stay" (.some .nil) .bool (.action (.truth false)))
        (.cons (.mk "near'" (.some (.plain (.mk "place") .nil)) (.ident "place")
          (.intermediate (.negatedInteger 1)))
        (.cons (.mk "seen" .none .int .observation) .nil))))))
      (.cons (.cpfs .nil) (.cons (.reward (.integer 0)) .nil)))))
    (.cons (.nonFluents "n"
      (.cons (.objects (.cons (.mk "place" (.mk (.mk "home") (.cons (.mk "here") .nil)))
        (.cons (.mk "size" (.mk (.mk "s") .nil)) .nil)))
      (.cons (.values (.cons (.valued "COST" (.some (.mk (.enumValue "@small")
          (.cons (.ident "home") .nil))) (.real _))
        (.cons (.plain "OPEN" .none) .nil))) .nil)))
    (.cons (.problem "i"
      (.cons (.objects (.cons (.mk "place" (.mk (.mk "home") .nil)) .nil))
      (.cons (.initialState (.cons (.negated "stay" .none)
        (.cons (.valued "at" (.some (.mk (.ident "here") .nil)) (.ident "s")) .nil))) .nil)))
    .nil)), ?_⟩
  rw [sampleDeclarationsText, Reading.scan_eq_walk 1 rfl]
  decide +kernel

theorem Reading.declarations_of_sampleDeclarationsText :
    sampleDeclarations.IsValid ∧
      (ofText 1 sampleDeclarationsText).GivesBack sampleDeclarations := by
  obtain ⟨ls, hwritten, hlexemes, hfault⟩ := sampleDeclarations_written
  have hread := (declarations_read_back sampleDeclarations_isValid).2 1 sampleDeclarationsText ls
    hwritten
  exact ⟨sampleDeclarations_isValid, hread.1 hlexemes hfault⟩

def overlongDeclarations : Declarations where
  domain := "d"
  types := []
  pvariables := [⟨"p", none, "int", .nonFluent (.integer (10 ^ digitLimit : Nat))⟩]
  nonFluents := "n"
  objects := [⟨"t", ["a"]⟩]
  values := [⟨"p", none, .truth true⟩]
  problem := "i"
  problemObjects := [⟨"t", ["a"]⟩]
  initial := [⟨"p", none, .truth true⟩]

theorem overlongDeclarations_isValid : overlongDeclarations.IsValid where
  names := by decide +kernel
  types := by decide +kernel
  pvariables := by decide +kernel
  objects := by decide +kernel
  values := by decide +kernel
  problemObjects := by decide +kernel
  initial := by decide +kernel
  constants := by
    have hall : ∀ k ∈ [Constant.integer (10 ^ digitLimit : Nat), .truth true, .truth true],
        k.IsValid := by
      simp only [List.forall_mem_cons, Constant.IsValid, List.not_mem_nil, false_implies,
        implies_true, and_true]
    exact hall

/-- **Declarations are lost where an integer has a digit too many.** -/
theorem Reading.overlong_declarations_lost :
    overlongDeclarations.IsValid ∧ ∃ ls, overlongDeclarations.document.Written ls ∧
      AllSpelled ls (ls.map plainSpelling) ∧
      Layout (ls.map plainSpelling) (plainText ls).toList ∧
      (ofText 1 (plainText ls)).verdict.model? = none := by
  refine ⟨overlongDeclarations_isValid, _, .cons (.domain "d" .none (.cons (.types .nil)
      (.cons (.pvariables (.cons (.mk "p" .none .int (.nonFluent (.integer _))) .nil))
        (.cons (.cpfs .nil) (.cons (.reward (.integer 0)) .nil)))))
    (.cons (.nonFluents "n" (.cons (.objects (.cons (.mk "t" (.mk (.mk "a") .nil)) .nil))
      (.cons (.values (.cons (.plain "p" .none) .nil)) .nil)))
    (.cons (.problem "i" (.cons (.objects (.cons (.mk "t" (.mk (.mk "a") .nil)) .nil))
      (.cons (.initialState (.cons (.plain "p" .none) .nil)) .nil))) .nil)),
    allSpelled_plain (by decide +kernel), layout_plainText _, ?_⟩
  rw [plainText, ofText_eq_ofScan 1 rfl, ← Option.isNone_iff_eq_none]
  decide +kernel

end Rddl
