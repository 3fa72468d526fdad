/-
  Rddl/Proofs/Domain/Declared.lean
  ================================
  **The declarations behind a domain.**

  A domain holds data, and of a domain that was read from a text more is known: its
  data come from declarations of variables and functions, and their names are
  identifiers of the text (`declares_of_verdict`).  `Domain.declared` and
  `Domain.defined` read the declared variables and the defined functions off the data,
  each as a functor with an arity.
-/
import Mathlib.Algebra.Order.Ring.Nat
import Mathlib.Data.List.Infix
import Mathlib.Data.Nat.SuccPred
import Rddl.Domain.Fluents
import Rddl.Proofs.Collections
import Rddl.Proofs.FluentName
import Rddl.Proofs.Reading
import Rddl.Proofs.Scan.Names

namespace Rddl

/-! ### Fluents -/

/-- What a fluent is known by: its functor and its number of arguments. -/
structure Fluent where
  functor : String
  arity : Nat
deriving DecidableEq, Repr

namespace Fluent

def name (f : Fluent) : String := f.functor ++ "/" ++ toString f.arity

/-- The fluent of the next state: its functor has a prime. -/
def next (f : Fluent) : Fluent := ⟨f.functor ++ "'", f.arity⟩

/-- The fluent with the last character of its functor dropped, whatever it is. -/
def shortened (f : Fluent) : Fluent := ⟨String.ofList f.functor.toList.dropLast, f.arity⟩

end Fluent

namespace Datum

def count : Datum → Nat
  | .list items => items.length
  | _ => 0

/-- The fluent that a datum declares, if it declares one of the given kind. -/
def declaration? (kind : FluentKind) : Datum → Option Fluent
  | .pvariable (.text name) (.text spelling) _ params _ _ =>
    if spelling = kind.spelling then some ⟨name, params.count⟩ else none
  | _ => none

def definition? : Datum → Option Fluent
  | .cpf (.tuple [_, .tuple [.text name, args]]) _ => some ⟨name, args.count⟩
  | _ => none

end Datum

namespace Domain

/-- The declared fluents of a kind, in the order of their declarations. -/
def declared (d : Domain) (kind : FluentKind) : List Fluent :=
  match d.pvariables with
  | .list ds => ds.filterMap (Datum.declaration? kind)
  | _ => []

def functions (d : Domain) : List Datum :=
  match d.cpfs with
  | .tuple [_, .list ds] => ds
  | _ => []

def defined (d : Domain) : List Fluent := d.functions.filterMap Datum.definition?

end Domain

/-! ### Declarations -/

def PVarDecl.fluent (v : PVarDecl) : Fluent := ⟨v.name, (v.params.getD []).length⟩

def CpfDecl.fluent (f : CpfDecl) : Fluent := ⟨f.target.name, (f.target.args.getD []).length⟩

theorem FluentKind.spelling_inj {k k' : FluentKind} : k.spelling = k'.spelling ↔ k = k' := by
  cases k <;> cases k' <;> decide

theorem Term.length_data (ts : List Term) : (Term.data ts).length = ts.length := by
  induction ts with
  | nil => rfl
  | cons t ts ih => simp [Term.data, ih]

theorem Datum.displayed_text (s : String) : (Datum.text s).displayed = .ok s := rfl

/-- A variable with a plain name is named by it and by how many parameters it has. -/
theorem PVariable.fluentName_eq {p : PVariable} {name : String} {params : Option (List String)}
    (hname : p.name = .text name) (hparams : p.params = (params.map Datum.texts).getD .absent) :
    p.fluentName = .ok (Fluent.name ⟨name, (params.getD []).length⟩) := by
  unfold PVariable.fluentName Datum.fluentName
  cases params <;>
    simp [hname, hparams, Datum.arity, Datum.isAbsent, Datum.texts, Datum.length,
      Datum.displayed_text, Fluent.name, bind, Except.bind]

namespace PVarDecl

theorem isOf_pvariable (v : PVarDecl) (kind : FluentKind) :
    v.pvariable.isOf kind = decide (v.role.kind = kind) := by
  simp [PVariable.isOf, pvariable, Datum.isText, FluentKind.spelling_inj, beq_eq_decide]

theorem fluentName_pvariable (v : PVarDecl) : v.pvariable.fluentName = .ok v.fluent.name :=
  PVariable.fluentName_eq rfl rfl

theorem declaration?_datum (v : PVarDecl) (kind : FluentKind) :
    v.pvariable.datum.declaration? kind = if v.role.kind = kind then some v.fluent else none := by
  cases h : v.params <;>
    simp [pvariable, PVariable.datum, Datum.declaration?, h, Datum.count, Datum.texts, fluent,
      FluentKind.spelling_inj]

end PVarDecl

namespace CpfDecl

theorem nameOf_datum (f : CpfDecl) : f.datum.nameOf = .ok f.fluent.name := by
  cases h : f.target.args <;>
    simp [datum, Datum.nameOf, Occurrence.tree, Datum.item, Datum.items, Datum.occurrenceName,
      Datum.fluentName, Datum.arity, Datum.isAbsent, Datum.length, Datum.displayed_text, h,
      Fluent.name, fluent, Term.length_data, bind, Except.bind]

theorem definition?_datum (f : CpfDecl) : f.datum.definition? = some f.fluent := by
  cases h : f.target.args <;>
    simp [datum, Occurrence.tree, Datum.definition?, h, Datum.count, fluent, Term.length_data]

end CpfDecl

/-- The declarations that a domain holds the data of; their names are identifiers. -/
structure Domain.Declares (d : Domain) (vars : List PVarDecl) (functions : List CpfDecl) :
    Prop where
  pvariables : d.pvariables = .list (vars.map fun v => v.pvariable.datum)
  cpfs : ∃ header, d.cpfs = .tuple [header, .list (functions.map CpfDecl.datum)]
  isIdent_variable : ∀ v ∈ vars, Lexeme.isIdent v.name.toList = true
  isIdent_function : ∀ f ∈ functions, Lexeme.isIdent f.target.name.toList = true

/-! ### From texts to declarations -/

/-- The domain of a model is made from a block of the document. -/
theorem Document.exists_block_of_domain? {d : Document} {domain : Domain}
    (h : d.domain? = .ok (some domain)) : ∃ b, .domain b ∈ d ∧ Domain.ofBlock b = .ok domain := by
  induction d with
  | nil => simp [domain?] at h
  | cons block rest ih =>
    cases block with
    | domain b =>
      simp only [domain?, except_bind_eq_ok] at h
      obtain ⟨first, hfirst, last, hlast, h⟩ := h
      -- a later domain counts more than the first
      cases last with
      | none =>
        simp only [Option.getD_none, Except.ok.injEq, Option.some.injEq] at h
        exact ⟨b, by simp, h ▸ hfirst⟩
      | some found =>
        simp only [Option.getD_some, Except.ok.injEq, Option.some.injEq] at h
        obtain ⟨b', hmem, hb'⟩ := ih (h ▸ hlast)
        exact ⟨b', List.mem_cons_of_mem _ hmem, hb'⟩
    | nonFluents b =>
      obtain ⟨b', hmem, hb'⟩ := ih h
      exact ⟨b', List.mem_cons_of_mem _ hmem, hb'⟩
    | problem b =>
      obtain ⟨b', hmem, hb'⟩ := ih h
      exact ⟨b', List.mem_cons_of_mem _ hmem, hb'⟩

theorem Document.exists_block_of_model {d : Document} {m : Model} (h : d.model = .ok m) :
    ∃ b, .domain b ∈ d ∧ Domain.ofBlock b = .ok m.domain := by
  simp only [model, except_bind_eq_ok] at h
  obtain ⟨domain?, hdomain, h⟩ := h
  unfold Model.ofBlocks at h
  split at h <;> cases h
  exact exists_block_of_domain? hdomain

theorem Domain.exists_section_of_require {sections : List DomainSection} {key : String}
    {value : Datum}
    (h : (Table.ofList (sections.map fun s => (s.key, s.datum))).require key = .ok value) :
    ∃ s ∈ sections, s.key = key ∧ s.datum = value := by
  unfold Table.require at h
  split at h
  · next found hfind =>
    cases h
    simpa using Table.mem_of_find?_ofList hfind
  · simp at h

/-- A domain holds the data of a section of variables and one of functions of its block. -/
theorem Domain.exists_sections_of_ofBlock {b : DomainBlock} {d : Domain}
    (h : ofBlock b = .ok d) :
    ∃ vars header functions, .pvariables vars ∈ b.sections ∧
      .cpfs header functions ∈ b.sections ∧
      d.pvariables = .list (vars.map fun v => v.pvariable.datum) ∧
      d.cpfs = .tuple [.text header.spelling, .list (functions.map CpfDecl.datum)] := by
  simp only [ofBlock, ofSections, except_bind_eq_ok, Except.ok.injEq] at h
  obtain ⟨pvariables, hpvariables, cpfs, hcpfs, reward, -, rfl⟩ := h
  obtain ⟨s, hs, hkey, rfl⟩ := exists_section_of_require hpvariables
  obtain ⟨s', hs', hkey', rfl⟩ := exists_section_of_require hcpfs
  -- the keys tell the forms of the sections
  cases s <;> simp [DomainSection.key] at hkey
  cases s' <;> simp [DomainSection.key] at hkey'
  exact ⟨_, _, _, hs, hs', rfl, rfl⟩

theorem Items.exists_of_mem {α : Type} {W : α → List Lexeme → Prop} {as : List α}
    {ls : List Lexeme} (h : Items W as ls) {a : α} (ha : a ∈ as) : ∃ l, W a l ∧ l ⊆ ls := by
  obtain ⟨l, hl, hinfix⟩ := h.exists_infix ha
  exact ⟨l, hl, hinfix.subset⟩

/-- The sections of a block of a written document are written, if those of the block are. -/
theorem Document.exists_written_of_block {d : Document} {ls : List Lexeme} {block : Block}
    {σ : Type} {W : σ → List Lexeme → Prop} {ss : List σ} {s : σ} (h : d.Written ls)
    (hblock : block ∈ d) (hs : s ∈ ss)
    (hsections : ∀ l, block.Written l → ∃ l', Items W ss l' ∧ l' ⊆ l) : ∃ l, W s l ∧ l ⊆ ls := by
  obtain ⟨l, hl, hsub⟩ := Items.exists_of_mem h hblock
  obtain ⟨l', hitems, hsub'⟩ := hsections l hl
  obtain ⟨k, hk, hsub''⟩ := hitems.exists_of_mem hs
  exact ⟨k, hk, fun x hx => hsub (hsub' (hsub'' hx))⟩

theorem Document.exists_written_section {d : Document} {ls : List Lexeme} {b : DomainBlock}
    {s : DomainSection} (h : d.Written ls) (hb : .domain b ∈ d) (hs : s ∈ b.sections) :
    ∃ l, s.Written l ∧ l ⊆ ls := by
  refine Document.exists_written_of_block h hb hs fun l hl => ?_
  cases hl with
  | domain name _ hsections => exact ⟨_, hsections, fun x hx => by simp [hx]⟩

theorem Document.exists_written_nonFluents {d : Document} {ls : List Lexeme}
    {b : NonFluentsBlock} {s : NonFluentsSection} (h : d.Written ls) (hb : .nonFluents b ∈ d)
    (hs : s ∈ b.sections) : ∃ l, s.Written l ∧ l ⊆ ls := by
  refine Document.exists_written_of_block h hb hs fun l hl => ?_
  cases hl with
  | nonFluents name hsections => exact ⟨_, hsections, fun x hx => by simp [hx]⟩

theorem Document.exists_written_problem {d : Document} {ls : List Lexeme} {b : InstanceBlock}
    {s : InstanceSection} (h : d.Written ls) (hb : .problem b ∈ d) (hs : s ∈ b.sections) :
    ∃ l, s.Written l ∧ l ⊆ ls := by
  refine Document.exists_written_of_block h hb hs fun l hl => ?_
  cases hl with
  | problem name hsections => exact ⟨_, hsections, fun x hx => by simp [hx]⟩

theorem mem_inBraces {ls : List Lexeme} {l : Lexeme} (h : l ∈ ls) : l ∈ inBraces ls := by
  simp [inBraces, h]

theorem PVarDecl.ident_mem {decls : List PVarDecl} {ls : List Lexeme} {v : PVarDecl}
    (h : DomainSection.Written (.pvariables decls) ls) (hv : v ∈ decls) : .ident v.name ∈ ls := by
  cases h with
  | pvariables hitems =>
    obtain ⟨l, hl, hsub⟩ := hitems.exists_of_mem hv
    cases hl
    exact List.mem_cons_of_mem _ (mem_inBraces (hsub (by simp)))

theorem CpfDecl.ident_mem {header : Keyword} {decls : List CpfDecl} {ls : List Lexeme}
    {f : CpfDecl} (h : DomainSection.Written (.cpfs header decls) ls) (hf : f ∈ decls) :
    .ident f.target.name ∈ ls := by
  have hitem : ∀ {l}, CpfDecl.Written f l → .ident f.target.name ∈ l := by
    intro l hl
    cases hl with
    | mk htarget _ => cases htarget <;> simp
  cases h with
  | cpfs hitems =>
    obtain ⟨l, hl, hsub⟩ := hitems.exists_of_mem hf
    exact List.mem_cons_of_mem _ (mem_inBraces (hsub (hitem hl)))
  | cdfs hitems =>
    obtain ⟨l, hl, hsub⟩ := hitems.exists_of_mem hf
    exact List.mem_cons_of_mem _ (mem_inBraces (hsub (hitem hl)))

/-- **A domain that was read from a text holds the data of declarations.** -/
theorem Domain.declares_of_verdict {line : Nat} {text : String} {m : Model}
    (h : (Reading.ofText line text).verdict = .model m) :
    ∃ vars functions, m.domain.Declares vars functions := by
  obtain ⟨d, ls, hwritten, hmodel, hsuffix⟩ := Reading.exists_document_of_verdict h
  obtain ⟨b, hb, hblock⟩ := Document.exists_block_of_model hmodel
  obtain ⟨vars, header, functions, hvs, hfs, hpvariables, hcpfs⟩ :=
    exists_sections_of_ofBlock hblock
  refine ⟨vars, functions, hpvariables, ⟨_, hcpfs⟩, fun v hv => ?_, fun f hf => ?_⟩
  · obtain ⟨l, hl, hsub⟩ := Document.exists_written_section hwritten hb hvs
    exact Scan.isIdent_of_mem_lexemes (hsuffix.subset (hsub (PVarDecl.ident_mem hl hv)))
  · obtain ⟨l, hl, hsub⟩ := Document.exists_written_section hwritten hb hfs
    exact Scan.isIdent_of_mem_lexemes (hsuffix.subset (hsub (CpfDecl.ident_mem hl hf)))

/-! ### Names of fluents -/

namespace Fluent

theorem toList_name (f : Fluent) :
    f.name.toList = f.functor.toList ++ '/' :: (toString f.arity).toList := by
  simp [name]

theorem split?_name {f : Fluent} (h : '/' ∉ f.functor.toList) :
    FluentName.split? f.name.toList = some (f.functor.toList, (toString f.arity).toList) := by
  rw [toList_name]
  exact FluentName.split?_append _ h

theorem slash_notMem_arity (n : Nat) : '/' ∉ (toString n).toList := by
  intro hmem
  have hdigit := Nat.isDigit_of_mem_toDigits (b := 10) (n := n) (c := '/') (by decide) (by decide)
    (by simpa [Nat.repr] using hmem)
  simp at hdigit

/-- The last slash of a name tells the functor from the arity. -/
theorem name_injective : Function.Injective Fluent.name := by
  intro f g h
  -- the arity is what stands behind the last slash, whatever the functor has in it
  have harity : ∀ f : Fluent, (f.name.toList.reverse.takeWhile (· ≠ '/')) =
      (toString f.arity).toList.reverse := by
    intro f
    rw [toList_name, List.reverse_append, List.reverse_cons, List.append_assoc,
      List.takeWhile_append_of_pos]
    · simp
    · intro c hc
      have hne : c ≠ '/' := by
        rintro rfl
        exact slash_notMem_arity f.arity (List.mem_reverse.mp hc)
      simpa using hne
  have hdigits : toString f.arity = toString g.arity := by
    rw [← String.toList_inj, ← List.reverse_inj, ← harity f, ← harity g, h]
  have hfunctor : f.functor.toList = g.functor.toList := by
    have hlist := congrArg String.toList h
    rw [toList_name, toList_name, hdigits] at hlist
    exact List.append_cancel_right hlist
  obtain ⟨functor, arity⟩ := f
  obtain ⟨functor', arity'⟩ := g
  obtain rfl : functor = functor' := String.toList_inj.mp hfunctor
  have hvalue := congrArg (fun s => Nat.ofDigitChars 10 s.toList 0) hdigits
  simp only [Nat.toString_eq_repr, Nat.toList_repr, Nat.ofDigitChars_ten_toDigits] at hvalue
  rw [hvalue]

theorem primed_name {f : Fluent} (h : '/' ∉ f.functor.toList) :
    FluentName.primed f.name = .ok f.next.name := by
  rw [FluentName.primed, split?_name h]
  simp [name, next, String.ext_iff]

theorem unprimed_name {f : Fluent} (h : '/' ∉ f.functor.toList) (hne : f.functor.toList ≠ []) :
    FluentName.unprimed f.name = .ok f.shortened.name := by
  rw [FluentName.unprimed, split?_name h]
  simp [name, shortened, String.ext_iff, hne]

@[simp] theorem shortened_next (f : Fluent) : f.next.shortened = f := by
  simp [next, shortened]

end Fluent

/-! ### Fluents and functions of a domain with declarations -/

theorem Domain.foldlM_addFluent (kind : FluentKind) (vs : List (Fluent × PVariable))
    (hnames : ∀ v ∈ vs, v.2.fluentName = .ok v.1.name) (t : Table String PVariable) :
    (vs.map fun v => v.2.datum).foldlM (addFluent kind) t =
      .ok (((vs.filter fun v => v.2.isOf kind).map fun v =>
        (v.1.name, v.2)).foldl (fun t e => t.insert e.1 e.2) t) := by
  induction vs generalizing t with
  | nil => rfl
  | cons v vs ih =>
    have hstep : addFluent kind t v.2.datum =
        .ok (if v.2.isOf kind then t.insert v.1.name v.2 else t) := by
      have hname := hnames v List.mem_cons_self
      by_cases hkind : v.2.isOf kind = true <;>
        simp [addFluent, Datum.asPVariable, PVariable.datum, hkind, hname, bind, Except.bind]
    rw [List.map_cons, List.foldlM_cons, hstep]
    change List.foldlM (addFluent kind) _ _ = _
    rw [ih fun w hw => hnames w (List.mem_cons_of_mem v hw)]
    by_cases hkind : v.2.isOf kind = true <;> simp [hkind]

namespace Domain.Declares

variable {d : Domain} {vars : List PVarDecl} {functions : List CpfDecl}

theorem slash_notMem_function (h : d.Declares vars functions) {f : CpfDecl}
    (hf : f ∈ functions) : '/' ∉ f.fluent.functor.toList :=
  Lexeme.slash_notMem_of_isIdentTail (Lexeme.isIdentTail_of_isIdent (h.isIdent_function f hf))

theorem declared_eq (h : d.Declares vars functions) (kind : FluentKind) :
    d.declared kind = (vars.filter fun v => v.role.kind = kind).map PVarDecl.fluent := by
  simp only [declared, h.pvariables, List.filterMap_map]
  rw [← List.filterMap_eq_map, ← List.filterMap_eq_filter, List.filterMap_filterMap]
  congr 1
  funext v
  by_cases hkind : v.role.kind = kind <;>
    simp [PVarDecl.declaration?_datum, Option.guard, hkind]

theorem isIdent_declared (h : d.Declares vars functions) {kind : FluentKind} {f : Fluent}
    (hf : f ∈ d.declared kind) : Lexeme.isIdent f.functor.toList = true := by
  simp only [h.declared_eq, List.mem_map, List.mem_filter] at hf
  obtain ⟨v, ⟨hv, -⟩, rfl⟩ := hf
  exact h.isIdent_variable v hv

theorem slash_notMem_declared (h : d.Declares vars functions) {kind : FluentKind} {f : Fluent}
    (hf : f ∈ d.declared kind) : '/' ∉ f.functor.toList :=
  Lexeme.slash_notMem_of_isIdentTail (Lexeme.isIdentTail_of_isIdent (h.isIdent_declared hf))

theorem functions_eq (h : d.Declares vars functions) :
    d.functions = functions.map CpfDecl.datum := by
  obtain ⟨header, hcpfs⟩ := h.cpfs
  simp [Domain.functions, hcpfs]

theorem defined_eq (h : d.Declares vars functions) :
    d.defined = functions.map CpfDecl.fluent := by
  rw [defined, h.functions_eq, List.filterMap_map, ← List.filterMap_eq_map]
  congr 1
  funext f
  exact f.definition?_datum

/-- The table of the fluents of a kind. -/
theorem fluents_eq (h : d.Declares vars functions) (kind : FluentKind) :
    d.fluents kind = .ok (Table.ofList
      ((vars.filter fun v => v.role.kind = kind).map fun v => (v.fluent.name, v.pvariable))) := by
  have hfold := foldlM_addFluent kind (vars.map fun v => (v.fluent, v.pvariable))
    (by simp [PVarDecl.fluentName_pvariable]) .empty
  simp only [List.map_map, List.filter_map, Function.comp_def, PVarDecl.isOf_pvariable] at hfold
  simp only [fluents, h.pvariables, Datum.items]
  exact hfold

/-- A name is found among the fluents of a kind exactly when its fluent is declared. -/
theorem isSome_find?_iff (h : d.Declares vars functions) {kind : FluentKind}
    {table : Table String PVariable} (htable : d.fluents kind = .ok table) {f : Fluent} :
    (table.find? f.name).isSome = true ↔ f ∈ d.declared kind := by
  rw [h.fluents_eq, Except.ok.injEq] at htable
  rw [← htable, Table.isSome_find?_ofList, h.declared_eq]
  simp only [List.map_map, List.mem_map, List.mem_filter, decide_eq_true_eq, Function.comp]
  constructor
  · rintro ⟨v, ⟨hv, hkind⟩, hname⟩
    exact ⟨v, ⟨hv, hkind⟩, Fluent.name_injective hname⟩
  · rintro ⟨v, hv, rfl⟩
    exact ⟨v, hv, rfl⟩

/-- What is found under the name of a fluent is a declaration of the fluent. -/
theorem exists_of_find?_eq_some (h : d.Declares vars functions) {kind : FluentKind}
    {table : Table String PVariable} (htable : d.fluents kind = .ok table) {f : Fluent}
    {p : PVariable} (hp : table.find? f.name = some p) :
    ∃ v ∈ vars, v.role.kind = kind ∧ v.fluent = f ∧ v.pvariable = p := by
  rw [h.fluents_eq, Except.ok.injEq] at htable
  rw [← htable] at hp
  have hmem := Table.mem_of_find?_ofList hp
  simp only [List.mem_map, List.mem_filter, decide_eq_true_eq, Prod.mk.injEq] at hmem
  obtain ⟨v, ⟨hv, hkind⟩, hname, hvar⟩ := hmem
  exact ⟨v, hv, hkind, Fluent.name_injective hname, hvar⟩

/-- The functions whose changed names are fluents of a kind, when every change succeeds. -/
theorem cpfsOf_eq (h : d.Declares vars functions) (kind : FluentKind)
    {change : String → Except Fault String} {changed : CpfDecl → Fluent}
    (hchange : ∀ f ∈ functions, change f.fluent.name = .ok (changed f).name)
    {table : Table String PVariable} (htable : d.fluents kind = .ok table) :
    d.cpfsOf kind change = .ok (functions.filterMap fun f =>
      (table.find? (changed f).name).map fun p => ⟨f.fluent.name, f.datum, p⟩) := by
  obtain ⟨header, hcpfs⟩ := h.cpfs
  have hlist : d.cpfList = .ok (functions.map CpfDecl.datum) := by
    simp [cpfList, hcpfs, Datum.pair, Datum.items, bind, Except.bind]
  rw [cpfsOf, hlist]
  change List.filterMapM _ (functions.map CpfDecl.datum) = _
  apply filterMapM_map_eq_ok
  intro f hf
  simp [f.nameOf_datum, hchange f hf, htable, bind, Except.bind]

theorem unprimed_function (h : d.Declares vars functions) {f : CpfDecl} (hf : f ∈ functions) :
    FluentName.unprimed f.fluent.name = .ok f.fluent.shortened.name := by
  refine Fluent.unprimed_name (h.slash_notMem_function hf) fun hempty => ?_
  have hident := h.isIdent_function f hf
  rw [show f.target.name.toList = [] from hempty] at hident
  simp [Lexeme.isIdent] at hident

end Domain.Declares

end Rddl
