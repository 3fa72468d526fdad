/-
  Rddl/Proofs/Report.lean
  =======================
  **Which reports come to their end.**

  The short report on a model that was read from a text always does.  What can stop the long one
  is told from the last block of each kind (`Report.completes_of_verdict`): an expression that
  cannot be listed, a fluent among the arguments of the fluent that a function defines, levels
  that have no order, an empty list of objects, and an instance without one of four sections.
-/
import Rddl.Proofs.Blocks
import Rddl.Proofs.Completion
import Rddl.Proofs.Datum.Equality
import Rddl.Proofs.Model.FluentTable
import Rddl.Proofs.Syntax.Listing

namespace Rddl

/-! ### Texts of single data -/

namespace Datum

/-- Whether a datum is a text, a number, a truth value or absent. -/
def isAtom : Datum → Bool
  | .text _ | .integer _ | .real _ | .truth _ | .absent => true
  | _ => false

theorem exists_displayed_of_isAtom {d : Datum} (h : d.isAtom = true) :
    ∃ s, d.displayed = .ok s := by
  cases d <;> first | exact ⟨_, rfl⟩ | cases h

theorem exists_joined_iff (ds : List Datum) (separator : String) :
    (∃ s, (Datum.list ds).joined separator = .ok s) ↔ ∀ d ∈ ds, ∃ s, d = .text s := by
  simp only [joined, items, except_bind_eq_ok, Except.ok.injEq, exists_eq_left']
  rw [exists_comm]
  simp only [exists_and_left, exists_eq', and_true, exists_mapM_eq_ok_iff]
  refine forall₂_congr fun d _ => ?_
  cases d <;> simp

end Datum

theorem Constant.isAtom_datum (k : Constant) : k.datum.isAtom = true := by
  cases k <;> rfl

theorem Role.isAtom_default (r : Role) : r.default.isAtom = true := by
  cases r <;> first | rfl | exact Constant.isAtom_datum _

theorem Role.isAtom_level (r : Role) : r.level.isAtom = true := by
  cases r <;> first | rfl | exact Constant.isAtom_datum _

def Term.isName : Term → Bool
  | .variable _ | .enumValue _ => true
  | .fluent _ | .applied .. => false

theorem Term.exists_datum_eq_text_iff (t : Term) : (∃ s, t.datum = .text s) ↔ t.isName = true := by
  cases t <;> simp [Term.datum, isName]

/-- A function that can be reported: its fluent has no other fluent among its arguments, and its
    body can be listed. -/
def CpfDecl.IsShown (f : CpfDecl) : Prop :=
  (∀ t ∈ f.target.args.getD [], t.isName = true) ∧ f.body.isListable = true

/-! ### Levels -/

def Role.level? : Role → Option Constant
  | .intermediate level => some level
  | _ => none

/-- The level of an intermediate fluent; of several declarations the last counts. -/
def PVarDecl.levelIn? (vars : List PVarDecl) (f : Fluent) : Option Constant :=
  (vars.reverse.find? fun v => v.role.kind = .intermediate ∧ v.fluent = f).bind fun v =>
    v.role.level?

namespace Domain.Declares

variable {d : Domain} {vars : List PVarDecl} {functions : List CpfDecl}
  {table : Table String PVariable}

theorem find?_eq (h : d.Declares vars functions) {kind : FluentKind}
    (htable : d.fluents kind = .ok table) (f : Fluent) :
    table.find? f.name =
      (vars.reverse.find? fun v => v.role.kind = kind ∧ v.fluent = f).map PVarDecl.pvariable := by
  rw [h.fluents_eq, Except.ok.injEq] at htable
  rw [← htable, Table.find?_ofList, ← List.map_reverse, ← List.filter_reverse, List.find?_map,
    List.find?_filter, Option.map_map]
  simp [Function.comp_def, Fluent.name_injective.eq_iff]

theorem map_level_find? (h : d.Declares vars functions)
    (htable : d.fluents .intermediate = .ok table) (f : Fluent) :
    (table.find? f.name).map PVariable.level = (PVarDecl.levelIn? vars f).map Constant.datum := by
  rw [h.find?_eq htable, PVarDecl.levelIn?, Option.map_map]
  cases hfind : vars.reverse.find? fun v => v.role.kind = .intermediate ∧ v.fluent = f with
  | none => rfl
  | some v =>
    have hv : v.role.kind = .intermediate ∧ v.fluent = f := by simpa using List.find?_some hfind
    obtain ⟨k, hk⟩ := Role.exists_of_kind_intermediate hv.1
    simp [PVarDecl.pvariable, hk, Role.level, Role.level?]

theorem exists_levelIn?_iff (h : d.Declares vars functions)
    (htable : d.fluents .intermediate = .ok table) {cpfs : List NamedCpf}
    (hcpfs : d.cpfsOf .intermediate .ok = .ok cpfs) {x : Datum} :
    (∃ c ∈ cpfs, c.fluent.level = x) ↔
      ∃ f ∈ functions, ∃ k ∈ PVarDecl.levelIn? vars f.fluent, k.datum = x := by
  have hmap : ∀ f : Fluent, (∃ p, table.find? f.name = some p ∧ p.level = x) ↔
      ∃ k ∈ PVarDecl.levelIn? vars f, k.datum = x := by
    intro f
    rw [← Option.map_eq_some_iff, h.map_level_find? htable, Option.map_eq_some_iff]
    rfl
  cases (h.cpfsOf_eq .intermediate (fun _ _ => rfl) htable).symm.trans hcpfs
  simp only [← hmap, List.mem_filterMap, Option.map_eq_some_iff]
  constructor
  · rintro ⟨c, ⟨f, hf, p, hp, rfl⟩, hx⟩
    exact ⟨f, hf, p, hp, hx⟩
  · rintro ⟨f, hf, p, hp, hx⟩
    exact ⟨_, ⟨f, hf, p, hp, rfl⟩, hx⟩

/-- The functions of intermediate fluents can be sorted if their levels are all numbers or all
    texts. -/
theorem exists_intermediateCpfs_iff_levels (h : d.Declares vars functions) :
    (∃ mids, d.intermediateCpfs = .ok mids) ↔
      ∀ f ∈ functions, ∀ g ∈ functions, ∀ k ∈ PVarDecl.levelIn? vars f.fluent,
        ∀ l ∈ PVarDecl.levelIn? vars g.fluent, k.datum.isNumeric = l.datum.isNumeric := by
  obtain ⟨table, htable⟩ : ∃ table, d.fluents .intermediate = .ok table :=
    ⟨_, h.fluents_eq .intermediate⟩
  obtain ⟨cpfs, hcpfs⟩ : ∃ cpfs, d.cpfsOf .intermediate .ok = .ok cpfs :=
    ⟨_, h.cpfsOf_eq .intermediate (fun _ _ => rfl) htable⟩
  -- the levels of the functions are those of the declarations that count
  have hlevel : ∀ x, (∃ c ∈ cpfs, c.fluent.level = x) ↔
      ∃ f ∈ functions, ∃ k ∈ PVarDecl.levelIn? vars f.fluent, k.datum = x :=
    fun x => h.exists_levelIn?_iff htable hcpfs
  have hconstant : ∀ c ∈ cpfs, ∃ k : Constant, c.fluent.level = k.datum := by
    intro c hc
    obtain ⟨f, -, k, -, hk⟩ := (hlevel c.fluent.level).mp ⟨c, hc, rfl⟩
    exact ⟨k, hk.symm⟩
  rw [exists_intermediateCpfs_iff_isNumeric hcpfs hconstant]
  constructor
  · intro hsame f hf g hg k hk l hl
    obtain ⟨a, ha, hak⟩ := (hlevel k.datum).mpr ⟨f, hf, k, hk, rfl⟩
    obtain ⟨b, hb, hbl⟩ := (hlevel l.datum).mpr ⟨g, hg, l, hl, rfl⟩
    rw [← hak, ← hbl]
    exact hsame a ha b hb
  · intro hsame a ha b hb
    obtain ⟨f, hf, k, hk, hka⟩ := (hlevel _).mp ⟨a, ha, rfl⟩
    obtain ⟨g, hg, l, hl, hlb⟩ := (hlevel _).mp ⟨b, hb, rfl⟩
    rw [← hka, ← hlb]
    exact hsame f hf g hg k hk l hl

end Domain.Declares

namespace Report

/-- A name with its arguments has a text if all of them are texts. -/
theorem exists_applied_iff (name : String) (args : Option (List Datum)) :
    (∃ s, applied (.text name) ((args.map .list).getD .absent) = .ok s) ↔
      ∀ d ∈ args.getD [], ∃ s, d = .text s := by
  cases args with
  | none => simp [applied, Datum.isAbsent, Datum.displayed_text, bind, Except.bind]
  | some args =>
    rw [Option.getD_some, ← Datum.exists_joined_iff args ", "]
    simp [applied, Datum.isAbsent, Datum.displayed_text, except_bind_eq_ok]

theorem exists_applied_occurrence_iff (o : Occurrence) :
    (∃ s, applied (.text o.name) ((o.args.map fun args => .list (Term.data args)).getD .absent) =
      .ok s) ↔ ∀ t ∈ o.args.getD [], t.isName = true := by
  have happlied := exists_applied_iff o.name (o.args.map Term.data)
  rw [Option.map_map] at happlied
  refine happlied.trans ?_
  cases o.args <;> simp [Term.data_eq_map, Term.exists_datum_eq_text_iff]

theorem exists_applied_assignment (a : Assignment) :
    ∃ s, applied (.text a.name) ((a.args.map Datum.texts).getD .absent) = .ok s := by
  have happlied := exists_applied_iff a.name (a.args.map (List.map Datum.text))
  rw [Option.map_map] at happlied
  refine happlied.mpr ?_
  cases a.args <;> simp

/-! ### Parts of a domain report -/

theorem heading_completes (block name : String) : CompletesIff (heading block (.text name)) True :=
  .after (.modify _) fun _ => completesIff_after_lift ⟨name, rfl⟩ fun _ _ =>
    .after (.modify _) fun _ => .modify _

theorem types_completes {d : Domain} {decls : List TypeDecl}
    (h : d.types = .list (decls.map TypeDecl.datum)) : CompletesIff (types d) True := by
  have hnames : (do (← d.types.items).mapM fun t => t.item 0 : Except Fault (List Datum)) =
      .ok (decls.map fun t => .text t.name) := by
    rw [h]
    exact mapM_map_eq_ok fun _ _ => rfl
  refine completesIff_after_lift ⟨_, hnames⟩ fun names hnames' => ?_
  cases hnames.symm.trans hnames'
  refine .ite (fun _ => completesIff_after_lift ?_ fun _ _ => .modify _) fun _ => .pure _
  exact (Datum.exists_joined_iff _ _).mpr (List.forall_mem_map.mpr fun t _ => ⟨t.name, rfl⟩)

theorem fluent_completes (name : String) (v : PVarDecl) :
    CompletesIff (fluent name v.pvariable) True := by
  refine completesIff_after_lift ⟨v.range, rfl⟩ fun _ _ => .ite (fun _ => ?_) fun _ => ?_
  · exact completesIff_after_lift (Datum.exists_displayed_of_isAtom v.role.isAtom_level)
      fun _ _ => .modify _
  · exact completesIff_after_lift (Datum.exists_displayed_of_isAtom v.role.isAtom_default)
      fun _ _ => .modify _

theorem cpf_completes {f : CpfDecl} (h : f.body.IsProper) :
    CompletesIff (cpf f.datum) f.IsShown := by
  have hrun : cpf f.datum = (lift (applied (.text f.target.name)
      ((f.target.args.map fun args => .list (Term.data args)).getD .absent)) >>= fun text =>
        line (text ++ " = ") >>= fun _ => lift f.body.datum.displayed >>= fun text =>
          line text >>= fun _ => gap) := rfl
  rw [hrun, CpfDecl.IsShown, ← exists_applied_occurrence_iff, ← Expr.exists_displayed_iff h]
  refine completesIff_lift_bind fun _ _ => .after (.modify _) fun _ => ?_
  exact completesIff_before_lift fun _ => .after (.modify _) fun _ => .modify _

section Declared

variable {d : Domain} {vars : List PVarDecl} {functions : List CpfDecl}
  (hdecl : d.Declares vars functions)
include hdecl

theorem fluents_completes (title : String) (kind : FluentKind) :
    CompletesIff (fluents title d kind) True := by
  obtain ⟨table, htable⟩ : ∃ table, d.fluents kind = .ok table := ⟨_, hdecl.fluents_eq kind⟩
  refine completesIff_after_lift ⟨table, htable⟩ fun table' htable' => ?_
  refine .after (.modify _) fun _ => ?_
  have hloop : CompletesIff (table'.entries.forM fun entry => fluent entry.1 entry.2) True := by
    refine .forM_of_forall fun entry hentry => ?_
    obtain ⟨v, -, -, -, hv⟩ := hdecl.exists_of_mem_entries htable' hentry
    rw [← hv]
    exact fluent_completes entry.1 v
  exact .after hloop fun _ => .modify _

theorem mem_cpf_iff {named : List Domain.NamedCpf} {p : Fluent → Prop} (h : d.Selects named p)
    {c : Datum} :
    c ∈ named.map Domain.NamedCpf.cpf ↔ ∃ f ∈ functions, p f.fluent ∧ f.datum = c := by
  rw [h c, hdecl.functions_eq, List.mem_map]
  constructor
  · rintro ⟨⟨f, hf, rfl⟩, fl, hfl, hp⟩
    cases f.definition?_datum.symm.trans hfl
    exact ⟨f, hf, hp, rfl⟩
  · rintro ⟨f, hf, hp, rfl⟩
    exact ⟨⟨f, hf, rfl⟩, f.fluent, f.definition?_datum, hp⟩

theorem cpfs_completes (title : String) {cpfs? : Except Fault (List Domain.NamedCpf)}
    {p : Fluent → Prop} (hproper : ∀ f ∈ functions, f.body.IsProper)
    (hselects : ∀ named, cpfs? = .ok named → d.Selects named p) :
    CompletesIff (cpfs title cpfs?)
      ((∃ named, cpfs? = .ok named) ∧ ∀ f ∈ functions, p f.fluent → f.IsShown) := by
  refine completesIff_lift_bind fun named hnamed => .after (.modify _) fun _ => ?_
  have hmem := fun {c} => mem_cpf_iff hdecl (hselects named hnamed) (c := c)
  -- whether a function is reported does not depend on the lines before
  let shown (c : Datum) : Prop := ∃ a lines, cpf c [] = .ok a lines
  have hshown : ∀ f ∈ functions, shown f.datum ↔ f.IsShown :=
    fun f hf => cpf_completes (hproper f hf) []
  refine (CompletesIff.forM (P := fun c => shown c.cpf) fun c hc => ?_).congr ?_
  · obtain ⟨f, hf, -, hdatum⟩ := hmem.mp (List.mem_map_of_mem hc)
    rw [← hdatum, hshown f hf]
    exact cpf_completes (hproper f hf)
  · rw [← List.forall_mem_map (P := shown)]
    constructor
    · intro hall f hf hp
      exact (hshown f hf).mp (hall f.datum (hmem.mpr ⟨f, hf, hp, rfl⟩))
    · intro hall c hc
      obtain ⟨f, hf, hp, rfl⟩ := hmem.mp hc
      exact (hshown f hf).mpr (hall f hf hp)

end Declared

theorem reward_completes {d : Domain} {e : Expr} (h : d.reward = e.datum) (hproper : e.IsProper) :
    CompletesIff (reward d) (e.isListable = true) := by
  refine .after (.modify _) fun _ => .after (.modify _) fun _ => ?_
  rw [← Expr.exists_displayed_iff hproper, ← h]
  exact completesIff_before_lift fun _ => .after (.modify _) fun _ => .modify _

theorem conditions_completes (title : String) {es : List Expr} (h : ∀ e ∈ es, e.IsProper) :
    CompletesIff (conditions title (.list (es.map Expr.datum)))
      (∀ e ∈ es, e.isListable = true) := by
  refine completesIff_after_lift ⟨_, rfl⟩ fun items hitems => ?_
  cases hitems
  refine .ite (fun _ => .after (.modify _) fun _ => .after (.modify _) fun _ => ?_) fun hempty => ?_
  · have hloop : CompletesIff ((es.map Expr.datum).forM fun c => do
        line (← lift c.displayed)
        gap) (∀ c ∈ es.map Expr.datum, ∃ s, c.displayed = .ok s) := by
      refine .forM fun c _ => completesIff_before_lift fun _ => ?_
      exact .after (.modify _) fun _ => .modify _
    refine hloop.congr ?_
    rw [List.forall_mem_map]
    exact forall₂_congr fun e he => Expr.exists_displayed_iff (h e he)
  · have hnil : es = [] := by simpa using hempty
    exact (CompletesIff.pure _).congr (by simp [hnil])

/-! ### Parts of the other reports -/

theorem assignments_completes (title : String) (values : List Assignment) :
    CompletesIff (assignments title (.list (values.map Assignment.datum))) True := by
  refine .after (.modify _) fun _ => completesIff_after_lift ⟨_, rfl⟩ fun items hitems => ?_
  cases hitems
  refine .forM_of_forall fun c hc => ?_
  obtain ⟨a, -, rfl⟩ := List.mem_map.mp hc
  have hrun : assignment a.datum = (lift (applied (.text a.name)
      ((a.args.map Datum.texts).getD .absent)) >>= fun text =>
        lift a.value.datum.displayed >>= fun value => line (text ++ " = " ++ value)) := rfl
  rw [hrun]
  refine completesIff_after_lift (exists_applied_assignment a) fun _ _ => ?_
  exact completesIff_after_lift (Datum.exists_displayed_of_isAtom a.value.isAtom_datum)
    fun _ _ => .modify _

theorem objects_completes (o : ObjectsDecl) : CompletesIff (objects o.datum) True := by
  refine completesIff_after_lift ⟨_, rfl⟩ fun pair hpair => ?_
  cases hpair
  refine completesIff_after_lift ?_ fun _ _ =>
    completesIff_after_lift ⟨o.type, rfl⟩ fun _ _ => .modify _
  exact (Datum.exists_joined_iff _ _).mpr (List.forall_mem_map.mpr fun s _ => ⟨s, rfl⟩)

/-- An attribute is reported if it is set and has a text. -/
theorem setting_completes (a : Attributes) (key : String) :
    CompletesIff (setting a key)
      (∃ value, a.find? key = some value ∧ ∃ s, value.displayed = .ok s) := by
  rw [setting, requiredOf]
  cases a.find? key with
  | none => exact (CompletesIff.throw _).congr (by simp)
  | some value =>
    have hline : CompletesIff (lift value.displayed >>= fun s => line (key ++ " = " ++ s)) _ :=
      completesIff_before_lift fun _ => .modify _
    exact hline.congr (by simp)

/-! ### Blocks -/

end Report

/-- What the long report on a domain needs. -/
structure DomainBlock.IsReportable (b : DomainBlock) (d : Domain) : Prop where
  functions : ∀ f ∈ b.functions,
    f.fluent.shortened ∈ d.declared .state ∨ f.fluent ∈ d.declared .intermediate → f.IsShown
  levels : ∀ f ∈ b.functions, ∀ g ∈ b.functions, ∀ k ∈ PVarDecl.levelIn? b.vars f.fluent,
    ∀ l ∈ PVarDecl.levelIn? b.vars g.fluent, k.datum.isNumeric = l.datum.isNumeric
  expressions : ∀ key ∈ ["reward", "preconds", "constraints", "invariants"],
    ∀ e ∈ b.expressions key, e.isListable = true

structure InstanceBlock.IsReportable (i : InstanceBlock) : Prop where
  complete : ∀ key ∈ ["horizon", "max_nondef_actions", "discount", "init_state"],
    i.section? key ≠ none
  horizon : ∀ test, i.section? "horizon" = some (.horizon (.condition test)) →
    test.isListable = true

namespace Report

section Domain

variable {b : DomainBlock} {d : Domain} (h : b.Gives d)
  (hproper : ∀ key, ∀ e ∈ b.expressions key, e.IsProper)
include h

theorem domainHeading_completes : CompletesIff (heading "domain" d.name) True := by
  rw [h.name]
  exact heading_completes "domain" b.name

include hproper

/-- The functions of both kinds are reported if the levels have an order and all functions can
    be reported. -/
theorem functions_complete :
    CompletesIff (cpfs "state_cpfs" d.stateCpfs)
      (∀ f ∈ b.functions, f.fluent.shortened ∈ d.declared .state → f.IsShown) ∧
    CompletesIff (cpfs "intermediate_cpfs" d.intermediateCpfs)
      ((∀ f ∈ b.functions, ∀ g ∈ b.functions, ∀ k ∈ PVarDecl.levelIn? b.vars f.fluent,
        ∀ l ∈ PVarDecl.levelIn? b.vars g.fluent, k.datum.isNumeric = l.datum.isNumeric) ∧
      ∀ f ∈ b.functions, f.fluent ∈ d.declared .intermediate → f.IsShown) := by
  have hbody : ∀ f ∈ b.functions, f.body.IsProper :=
    fun f hf => hproper "cpfs" f.body (DomainBlock.body_mem_expressions hf)
  constructor
  · -- the functions of states can always be listed
    obtain ⟨states, hstates, hselects⟩ := h.declares.exists_stateCpfs
    have hall : ∀ named, d.stateCpfs = .ok named →
        d.Selects named fun f => f.shortened ∈ d.declared .state := by
      intro named hnamed
      cases hstates.symm.trans hnamed
      exact hselects
    exact (cpfs_completes h.declares "state_cpfs" hbody hall).congr
      (and_iff_right ⟨states, hstates⟩)
  · -- those of intermediate fluents have to be sorted by their levels first
    have hall : ∀ mids, d.intermediateCpfs = .ok mids → d.Selects mids _ :=
      fun _ => h.declares.selects_intermediateCpfs
    exact (cpfs_completes h.declares "intermediate_cpfs" hbody hall).congr
      (and_congr_left' h.declares.exists_intermediateCpfs_iff_levels)

theorem expressions_complete :
    CompletesIff (reward d) (∀ e ∈ b.expressions "reward", e.isListable = true) ∧
    CompletesIff (conditions "preconds" d.preconditions)
      (∀ e ∈ b.expressions "preconds", e.isListable = true) ∧
    CompletesIff (conditions "constraints" d.constraints)
      (∀ e ∈ b.expressions "constraints", e.isListable = true) ∧
    CompletesIff (conditions "invariants" d.invariants)
      (∀ e ∈ b.expressions "invariants", e.isListable = true) := by
  refine ⟨?_, ?_, ?_, ?_⟩
  · obtain ⟨e, hreward, hdatum⟩ := h.reward
    refine (reward_completes hdatum (hproper "reward" e (by simp [hreward]))).congr ?_
    simp [hreward]
  · rw [h.preconditions]
    exact conditions_completes _ (hproper "preconds")
  · rw [h.constraints]
    exact conditions_completes _ (hproper "constraints")
  · rw [h.invariants]
    exact conditions_completes _ (hproper "invariants")

theorem domain_completes :
    CompletesIff (domain d true) (b.IsReportable d) := by
  obtain ⟨hstates, hmids⟩ := functions_complete h hproper
  obtain ⟨hreward, hpreconds, hconstraints, hinvariants⟩ := expressions_complete h hproper
  have hfluents : ∀ title kind, CompletesIff (fluents title d kind) True :=
    fluents_completes h.declares
  -- names, types and fluents are always reported, what comes after them decides
  have hall : CompletesIff (domain d true) _ :=
    .after (domainHeading_completes h) fun _ => .after (.modify _) fun _ =>
    .after (types_completes h.types) fun _ => .after (hfluents _ _) fun _ =>
    .after (hfluents _ _) fun _ => .after (hfluents _ _) fun _ => .after (hfluents _ _) fun _ =>
    hstates.bind fun _ => hmids.bind fun _ => hreward.bind fun _ => hpreconds.bind fun _ =>
    hconstraints.bind fun _ => hinvariants
  refine hall.congr ⟨?_, ?_⟩
  · rintro ⟨hstate, ⟨hlevels, hmid⟩, hreward, hpreconds, hconstraints, hinvariants⟩
    refine ⟨fun f hf => Or.rec (hstate f hf) (hmid f hf), hlevels, ?_⟩
    simp only [List.forall_mem_cons]
    exact ⟨hreward, hpreconds, hconstraints, hinvariants, by simp⟩
  · intro hreport
    have hlisted := hreport.expressions
    simp only [List.forall_mem_cons] at hlisted
    exact ⟨fun f hf hp => hreport.functions f hf (.inl hp), ⟨hreport.levels,
      fun f hf hp => hreport.functions f hf (.inr hp)⟩, hlisted.1, hlisted.2.1, hlisted.2.2.1,
      hlisted.2.2.2.1⟩

end Domain

section Attributes

variable {a : Attributes}

/-- An empty list of objects is held as a list with nothing in its one place. -/
theorem listed_completes {n : NonFluentsBlock} (ha : a.IsNonFluentsOf n) :
    ∃ listed, a.find? "objects" = some listed ∧
      CompletesIff (lift listed.items >>= fun items => items.forM objects)
        (n.section? "objects" ≠ some (.objects [])) := by
  refine ⟨_, ha.objects, ?_⟩
  rw [NonFluentsBlock.value?, NonFluentsBlock.section?]
  cases hs : lastWith? NonFluentsSection.key "objects" n.sections with
  -- without a section there are no objects
  | none => exact (CompletesIff.pure _).congr (by simp)
  | some s =>
    have hkey := key_of_lastWith? hs
    cases s with
    | objects decls =>
      cases decls with
      -- an empty section holds an absent entry, which is no pair
      | nil => exact (CompletesIff.throw _).congr (by simp)
      | cons first rest =>
        have hloop : CompletesIff (((first :: rest).map ObjectsDecl.datum).forM objects) True := by
          refine .forM_of_forall fun c hc => ?_
          obtain ⟨o, -, rfl⟩ := List.mem_map.mp hc
          exact objects_completes o
        exact hloop.congr (by simp)
    | _ => simp [NonFluentsSection.key] at hkey

theorem exists_values {n : NonFluentsBlock} (ha : a.IsNonFluentsOf n) :
    a.find? "init_non_fluent" = none ∨ ∃ values : List Assignment,
      a.find? "init_non_fluent" = some (.list (values.map Assignment.datum)) := by
  rw [ha.others "init_non_fluent" (by decide) (by decide), NonFluentsBlock.value?]
  cases hs : lastWith? NonFluentsSection.key "init_non_fluent" n.sections with
  | none => exact .inl rfl
  | some s =>
    have hkey := key_of_lastWith? hs
    cases s with
    | values values => exact .inr ⟨values, rfl⟩
    | _ => simp [NonFluentsSection.key] at hkey

theorem nonFluents_completes {n : NonFluentsBlock} (ha : a.IsNonFluentsOf n) :
    CompletesIff (nonFluents a false) True ∧
      CompletesIff (nonFluents a true) (n.section? "objects" ≠ some (.objects [])) := by
  constructor
  · simp only [nonFluents, requiredOf, ha.name, pure_bind]
    exact .after (heading_completes _ _) fun _ => .modify _
  · obtain ⟨listed, hlisted, hobjects⟩ := listed_completes ha
    have hlist : ∀ {next : Unit → Report Unit}, (∀ u, CompletesIff (next u) True) →
        CompletesIff (lift listed.items >>= fun items => items.forM objects >>= next)
          (n.section? "objects" ≠ some (.objects [])) := by
      intro next hnext
      rw [← bind_assoc]
      exact hobjects.before hnext
    -- the assignments may be left out
    rcases exists_values ha with hvalues | ⟨values, hvalues⟩
    · simp only [nonFluents, requiredOf, ha.name, hlisted, hvalues, pure_bind, if_true]
      refine .after (heading_completes _ _) fun _ => .after (.modify _) fun _ => hlist fun _ => ?_
      exact .after (.modify _) fun _ => .modify _
    · simp only [nonFluents, requiredOf, ha.name, hlisted, hvalues, pure_bind, if_true]
      refine .after (heading_completes _ _) fun _ => .after (.modify _) fun _ => hlist fun _ => ?_
      exact .after (.modify _) fun _ => .after (assignments_completes _ values) fun _ => .modify _

section Problem

variable {i : InstanceBlock} (ha : a.IsProblemOf i)
include ha

theorem setting_completesIff {key : String} (hkey : key ≠ "name") :
    CompletesIff (setting a key)
      (∃ s, i.section? key = some s ∧ ∃ text, s.datum.displayed = .ok text) := by
  refine (setting_completes a key).congr ?_
  rw [ha.others key hkey, InstanceBlock.value?]
  simp only [Option.map_eq_some_iff, exists_exists_and_eq_and]
  rfl

theorem horizon_completes (hproper : ∀ test,
      i.section? "horizon" = some (.horizon (.condition test)) → test.IsProper) :
    CompletesIff (setting a "horizon")
      (i.section? "horizon" ≠ none ∧ ∀ test,
        i.section? "horizon" = some (.horizon (.condition test)) → test.isListable = true) := by
  refine (setting_completesIff ha (by decide)).congr ?_
  cases hs : i.section? "horizon" with
  | none => simp
  | some s =>
    have hkey := key_of_lastWith? hs
    cases s with
    | horizon limit =>
      cases limit with
      -- a count is always shown, a condition if it can be listed
      | steps count =>
        have htext : ∃ text, count.datum.displayed = .ok text := by cases count <;> exact ⟨_, rfl⟩
        simpa [InstanceSection.datum, Horizon.datum] using htext
      | condition test =>
        have htext := Expr.exists_displayed_iff (hproper test hs)
        simpa [InstanceSection.datum, Horizon.datum] using htext
    | _ => simp [InstanceSection.key] at hkey

theorem settings_complete {key : String} (hkey : key ∈ ["max_nondef_actions", "discount"]) :
    CompletesIff (setting a key) (i.section? key ≠ none) := by
  have hname : key ≠ "name" := by
    rintro rfl
    exact absurd hkey (by decide)
  refine (setting_completesIff ha hname).congr ?_
  cases hs : i.section? key with
  | none => simp
  | some s =>
    have hown := key_of_lastWith? hs
    have htext : ∃ text, s.datum.displayed = .ok text := by
      subst hown
      cases s with
      | maxActions count => cases count <;> exact ⟨_, rfl⟩
      | discount factor => exact ⟨_, rfl⟩
      | _ => simp [InstanceSection.key] at hkey
    simpa using htext

theorem initialState_completes :
    CompletesIff (requiredOf "Instance" a "init_state" >>= assignments "init-state")
      (i.section? "init_state" ≠ none) := by
  rw [requiredOf, ha.others "init_state" (by decide), InstanceBlock.value?, InstanceBlock.section?]
  cases hs : lastWith? InstanceSection.key "init_state" i.sections with
  | none => exact (CompletesIff.throw _).congr (by simp)
  | some s =>
    have hkey := key_of_lastWith? hs
    cases s with
    | initialState values => exact (assignments_completes _ values).congr (by simp)
    | _ => simp [InstanceSection.key] at hkey

theorem problem_completes (hproper : ∀ test,
      i.section? "horizon" = some (.horizon (.condition test)) → test.IsProper) :
    CompletesIff (problem a false) True ∧ CompletesIff (problem a true) i.IsReportable := by
  constructor
  · simp only [problem, requiredOf, ha.name, pure_bind]
    exact .after (heading_completes _ _) fun _ => .modify _
  · have hname : requiredOf "Instance" a "name" = pure (.text i.name) := by
      rw [requiredOf, ha.name]
    -- the report ends with the initial state and an empty line
    have hstate : CompletesIff (requiredOf "Instance" a "init_state" >>= fun values =>
        assignments "init-state" values >>= fun _ => gap) (i.section? "init_state" ≠ none) := by
      rw [← bind_assoc]
      exact (initialState_completes ha).before fun _ => .modify _
    rw [problem, hname, pure_bind]
    refine CompletesIff.congr (.after (heading_completes _ _) fun _ =>
      (horizon_completes ha hproper).bind fun _ => (settings_complete ha (by decide)).bind fun _ =>
      (settings_complete ha (by decide)).bind fun _ => .after (.modify _) fun _ => hstate) ?_
    constructor
    · rintro ⟨⟨hhorizon, hlisted⟩, hmax, hdiscount, hinit⟩
      refine ⟨?_, hlisted⟩
      simp only [List.forall_mem_cons]
      exact ⟨hhorizon, hmax, hdiscount, hinit, by simp⟩
    · intro hreport
      have hcomplete := hreport.complete
      simp only [List.forall_mem_cons] at hcomplete
      exact ⟨⟨hcomplete.1, hreport.horizon⟩, hcomplete.2.1, hcomplete.2.2.1, hcomplete.2.2.2.1⟩

end Problem

end Attributes

/-- **The short report on a model always comes to its end, and the long one does if the blocks
    have what it needs.**  A model that was read from a text holds what the last block of each
    kind gives, and these blocks decide.

    * The domain is reported if every function of a state or an intermediate fluent can be,
      the levels of the latter have an order, and reward and conditions can be listed.
    * The non-fluents are reported unless the objects are given as an empty list.
    * The instance is reported if none of four sections is lacking and a condition that ends it
      can be listed.

    What cannot be listed has a misleading aggregation in it. -/
theorem completes_of_verdict {line : Nat} {text : String} {m : Model}
    (h : (Reading.ofText line text).verdict = .model m) :
    ∃ (doc : Document) (ls : List Lexeme) (b : DomainBlock) (n : NonFluentsBlock)
      (i : InstanceBlock), doc.Written ls ∧ ls <:+ (Scan.ofText line text).lexemes ∧
      doc.last? "domain" = some (.domain b) ∧ doc.last? "non_fluents" = some (.nonFluents n) ∧
      doc.last? "instance" = some (.problem i) ∧ m.IsOf b n i ∧
      CompletesIff (domain m.domain false) True ∧
      CompletesIff (nonFluents m.nonFluents false) True ∧
      CompletesIff (problem m.problem false) True ∧
      CompletesIff (domain m.domain true) (b.IsReportable m.domain) ∧
      CompletesIff (nonFluents m.nonFluents true) (n.section? "objects" ≠ some (.objects [])) ∧
      CompletesIff (problem m.problem true) i.IsReportable ∧
      ∀ e : Expr, e.isListable = false → ∃ p, e.HasPart p ∧ p.isMisleading = true := by
  obtain ⟨doc, ls, b, n, i, hwritten, hsuffix, hb, hn, hi, hisOf, hgives⟩ :=
    Model.exists_blocks_of_verdict h
  -- what is written with lexemes of the text has names that are spelled as such
  have hproper : ∀ {e : Expr}, (∃ l, e.Written l ∧ l ⊆ ls) → e.IsProper := by
    rintro e ⟨l, hl, hsub⟩
    exact Expr.isProper_of_written hl fun x hx =>
      Scan.areSpelled_lexemes line text x (hsuffix.subset (hsub hx))
  have hexpressions : ∀ key, ∀ e ∈ b.expressions key, e.IsProper := fun key e he =>
    hproper (DomainBlock.exists_written_of_mem_expressions hwritten (mem_of_lastWith? hb) he)
  have htest : ∀ test, i.section? "horizon" = some (.horizon (.condition test)) → test.IsProper :=
    fun test hs =>
      hproper (InstanceBlock.exists_written_of_horizon hwritten (mem_of_lastWith? hi) hs)
  obtain ⟨hshort, hlong⟩ := nonFluents_completes hisOf.nonFluents
  obtain ⟨hshort', hlong'⟩ := problem_completes hisOf.problem htest
  have hdomain : CompletesIff (domain m.domain false) True :=
    .after (domainHeading_completes hgives) fun _ => .after (.modify _) fun _ => .pure _
  exact ⟨doc, ls, b, n, i, hwritten, hsuffix, hb, hn, hi, hisOf, hdomain, hshort, hshort',
    domain_completes hgives hexpressions, hlong, hlong',
    fun _ => Expr.exists_isMisleading_of_isListable⟩

def bareText : String := "domain d \x7b
  pvariables \x7b \x7d;
  cpfs \x7b \x7d;
  reward = 1;
\x7d
non-fluents n \x7b \x7d
instance i \x7b horizon = 5; discount = 0.9; \x7d"

/-- An instance needs no sections for the short report, but four of them for the long one. -/
theorem completes_of_bareText :
    ∃ m, (Reading.ofText 1 bareText).verdict = .model m ∧
      CompletesIff (problem m.problem false) True ∧
      CompletesIff (nonFluents m.nonFluents true) True ∧
      CompletesIff (problem m.problem true) False := by
  have hread : ((Reading.ofText 1 bareText).verdict.model?.map fun m =>
      (m.nonFluents.find? "objects", m.problem.find? "init_state")) =
      some (some (.list []), none) := by
    rw [bareText, Reading.ofText_eq_ofScan 1 rfl]
    decide +kernel
  obtain ⟨m, hmodel, hview⟩ := Option.map_eq_some_iff.mp hread
  rw [Prod.mk.injEq] at hview
  have hverdict := Verdict.eq_model_of_model? hmodel
  obtain ⟨doc, ls, b, n, i, -, -, -, -, -, hisOf, -, -, hshort, -, hnonFluents, hproblem, -⟩ :=
    completes_of_verdict hverdict
  refine ⟨m, hverdict, hshort, hnonFluents.congr ?_, hproblem.congr ?_⟩
  · -- a section without objects would hold an absent entry
    refine iff_true_intro fun hempty => ?_
    have hobjects := hisOf.nonFluents.objects.symm.trans hview.1
    rw [NonFluentsBlock.section?] at hempty
    rw [NonFluentsBlock.value?, hempty] at hobjects
    cases hobjects
  · -- there is no initial state to report
    refine iff_false_intro fun hreport => hreport.complete "init_state" (by decide) ?_
    have hstate := (hisOf.problem.others "init_state" (by decide)).symm.trans hview.2
    exact Option.map_eq_none_iff.mp hstate

end Report

end Rddl
