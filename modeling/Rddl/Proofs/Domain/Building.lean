/-
  Rddl/Proofs/Domain/Building.lean
  ================================
  **When the tables of a domain can be built.**

  Building looks at every precondition twice: at its scope, and, if it is local to an action,
  at the comparison that it consists of.  The scope is lacking where the walk fails.  Below a
  universal quantifier the comparison is looked for in the second place, which is that of the
  body only if one variable is bound (`Expr.isWide`).  Nothing else fails for a domain that was
  read from a text (`Domain.build_of_verdict`).
-/
import Rddl.Proofs.Blocks
import Rddl.Proofs.Completion
import Rddl.Proofs.Domain.Comparisons
import Rddl.Proofs.Model.FluentTable

namespace Rddl

namespace Domain

/-! ### The two loops -/

theorem placePrecondition_completesIff (actions : Table String PVariable) (condition : Datum) :
    CompletesIff (placePrecondition actions condition)
      (∃ names, condition.scopeOf = .ok names) := by
  rw [placePrecondition_eq]
  exact (Build.completesIff_lift_bind fun _ => .modify _).congr (by simp)

theorem buildPreconditions_completesIff {d : Domain} {actions : Table String PVariable}
    {conditions : List Datum} (hactions : d.fluents .action = .ok actions)
    (hconditions : d.preconditions.items = .ok conditions) :
    CompletesIff d.buildPreconditions (∀ c ∈ conditions, ∃ names, c.scopeOf = .ok names) := by
  rw [buildPreconditions, hactions, hconditions]
  refine (CompletesIff.bind (.modify _) fun _ => ?_).congr (Iff.of_eq (true_and _))
  exact .forM fun c _ => placePrecondition_completesIff actions c

theorem placeBound_completesIff (name : String) (condition : Datum) :
    CompletesIff (placeBound name condition) (∃ bound, bound? name condition = .ok bound) := by
  rw [placeBound_eq]
  exact (Build.completesIff_lift_bind fun _ => .modify _).congr (by simp)

theorem error_of_placeBound {name : String} {condition : Datum} {t t' : Tables} {cause : Fault}
    (h : placeBound name condition t = .error cause t') : bound? name condition = .error cause := by
  rw [placeBound_eq] at h
  cases hbound : bound? name condition with
  | ok bound =>
    rw [hbound] at h
    cases h
  | error cause' =>
    rw [hbound] at h
    cases h
    rfl

section Bounds

variable {t : Tables} {locals : Table String (List Datum)}
  (h : t.localPreconditions? = some locals)
include h

theorem buildBounds_eq :
    buildBounds t = (locals.entries.forM fun entry => entry.2.forM (placeBound entry.1))
      { t with lowerBounds? := some .empty, upperBounds? := some .empty } := by
  have hrun : buildBounds t = (Build.lift (Tables.localPreconditions t) >>= fun table =>
      table.entries.forM fun entry => entry.2.forM (placeBound entry.1))
      { t with lowerBounds? := some .empty, upperBounds? := some .empty } := rfl
  rw [hrun, Tables.localPreconditions, h]
  rfl

theorem exists_buildBounds_iff :
    (∃ a t', buildBounds t = .ok a t') ↔
      ∀ entry ∈ locals.entries, ∀ c ∈ entry.2, ∃ bound, bound? entry.1 c = .ok bound := by
  have hloop : CompletesIff
      (locals.entries.forM fun entry => entry.2.forM (placeBound entry.1)) _ :=
    .forM fun entry _ => .forM fun c _ => placeBound_completesIff entry.1 c
  rw [buildBounds_eq h]
  exact hloop _

theorem error_of_buildBounds {t' : Tables} {cause : Fault}
    (hrun : buildBounds t = .error cause t') :
    ∃ entry ∈ locals.entries, ∃ c ∈ entry.2, bound? entry.1 c = .error cause := by
  rw [buildBounds_eq h] at hrun
  obtain ⟨entry, hentry, s, s', hrun⟩ := exists_error_of_forM hrun
  obtain ⟨c, hc, u, u', hrun⟩ := exists_error_of_forM hrun
  exact ⟨entry, hentry, c, hc, error_of_placeBound hrun⟩

end Bounds

/-! ### Building -/

theorem exists_scopeOf_iff {e : Expr} (h : e.IsProper) :
    (∃ names, e.datum.scopeOf = .ok names) ↔ e.walk ≠ none := by
  have hscope : e.datum.scopeOf = e.tree.scope := rfl
  have hmeets := e.meets_tree h
  rw [hscope]
  cases hwalk : e.walk with
  | none =>
    obtain ⟨cause, hcause⟩ := Datum.scope_of_meets_none (hwalk ▸ hmeets)
    simp [hcause]
  | some met =>
    obtain ⟨names, hnames, -⟩ := Datum.scope_of_meets (hwalk ▸ hmeets)
    simp [hnames]

section Build

variable {d : Domain} {vars : List PVarDecl} {functions : List CpfDecl} {conditions : List Expr}
  {actions : Table String PVariable}

/-- The action fluents in the scope of a condition are those that the walk meets. -/
theorem mem_actionsIn_iff (hdecl : d.Declares vars functions)
    (hactions : d.fluents .action = .ok actions) {e : Expr} (h : e.IsProper) {met : List Fluent}
    (hmet : e.walk = some met) {name : String} :
    name ∈ e.datum.actionsIn actions ↔ ∃ f, (f ∈ met ∧ f ∈ d.declared .action) ∧ f.name = name := by
  obtain ⟨names, hnames, -, hnamed⟩ := Datum.scope_of_meets (hmet ▸ e.meets_tree h)
  have hscope : e.datum.scopeOf = .ok names := hnames
  simp only [Datum.actionsIn, hscope, Except.toOption, Option.getD_some, Finset.mem_inter,
    List.mem_toFinset, hnamed, hdecl.mem_keys_iff hactions]
  constructor
  · rintro ⟨⟨f, hf, rfl⟩, g, hg, hname⟩
    cases Fluent.name_injective hname
    exact ⟨f, ⟨hf, hg⟩, rfl⟩
  · rintro ⟨f, ⟨hf, hg⟩, hname⟩
    exact ⟨⟨f, hf, hname⟩, f, hg, hname⟩

/-- A condition is local if the walk meets exactly one action fluent. -/
theorem exists_actionsIn_eq_iff (hdecl : d.Declares vars functions)
    (hactions : d.fluents .action = .ok actions) {e : Expr} (h : e.IsProper) {met : List Fluent}
    (hmet : e.walk = some met) :
    (∃ a, e.datum.actionsIn actions = {a}) ↔ ∃! f, f ∈ met ∧ f ∈ d.declared .action := by
  have hmem : ∀ {name}, name ∈ e.datum.actionsIn actions ↔ _ :=
    mem_actionsIn_iff hdecl hactions h hmet
  constructor
  · -- another fluent that is met would have the same name
    rintro ⟨a, ha⟩
    simp only [ha, Finset.mem_singleton] at hmem
    obtain ⟨f, hf, hname⟩ := hmem.mp rfl
    refine ⟨f, hf, fun g hg => Fluent.name_injective ?_⟩
    rw [hmem.mpr ⟨g, hg, rfl⟩, hname]
  · -- the name of the one action is in the scope, and whatever is there is its name
    rintro ⟨f, hf, hunique⟩
    refine ⟨f.name, Finset.ext fun name => ?_⟩
    rw [hmem, Finset.mem_singleton]
    constructor
    · rintro ⟨g, hg, rfl⟩
      rw [hunique g hg]
    · rintro rfl
      exact ⟨f, hf, rfl⟩

/-- A condition that can be built: the walk through it comes to its end, and it is not local if
    it binds several variables. -/
def CanPlace (d : Domain) (e : Expr) : Prop :=
  ∃ met, e.walk = some met ∧
    (e.isWide = true → ¬ ∃! f, f ∈ met ∧ f ∈ d.declared .action)

theorem canPlace_iff (hdecl : d.Declares vars functions)
    (hactions : d.fluents .action = .ok actions) {e : Expr} (h : e.IsProper)
    (hwalk : e.walk ≠ none) :
    d.CanPlace e ↔
      ∀ a, e.datum.actionsIn actions = {a} → ∃ bound, bound? a e.datum = .ok bound := by
  obtain ⟨met, hmet⟩ := Option.ne_none_iff_exists'.mp hwalk
  have hlocal := exists_actionsIn_eq_iff hdecl hactions h hmet
  simp only [CanPlace, hmet, Option.some.injEq, exists_eq_left', ← hlocal]
  constructor
  · intro hplace a ha
    have hwide : e.isWide = false := Bool.eq_false_iff.mpr fun hwide => hplace hwide ⟨a, ha⟩
    exact ⟨_, bound?_eq h hwalk hwide a⟩
  · rintro hplace hwide ⟨a, ha⟩
    obtain ⟨bound, hbound⟩ := hplace a ha
    cases (bound?_of_isWide h hwide a).symm.trans hbound

theorem build_eq {t₀ t : Tables} (h : d.buildPreconditions t₀ = .ok () t) :
    d.build t₀ = buildBounds t := by
  have hrun : d.build t₀ = EStateM.bind d.buildPreconditions (fun _ => buildBounds) t₀ := rfl
  rw [hrun, EStateM.bind, h]

theorem exists_buildPreconditions_of_build {t₀ t : Tables} (h : d.build t₀ = .ok () t) :
    ∃ t', d.buildPreconditions t₀ = .ok () t' := by
  have hrun : d.build t₀ = EStateM.bind d.buildPreconditions (fun _ => buildBounds) t₀ := rfl
  rw [hrun, EStateM.bind] at h
  split at h
  · next hpreconditions => exact ⟨_, hpreconditions⟩
  · cases h

section Conditions

variable (hconditions : d.preconditions = .list (conditions.map Expr.datum))
include hconditions

/-- After the first loop the local conditions are where the second one looks for them. -/
theorem exists_divides_of_buildPreconditions {t₀ t : Tables}
    (h : d.buildPreconditions t₀ = .ok () t) :
    ∃ actions locals globals, d.fluents .action = .ok actions ∧
      t.localPreconditions? = some locals ∧
      Divides (Datum.actionsIn actions) (conditions.map Expr.datum) locals globals := by
  obtain ⟨actions, conditions', hactions, hitems, -, locals, globals, hlocals, -, hdivides⟩ :=
    d.buildPreconditions_ensures.of_ok trivial h
  rw [hconditions] at hitems
  cases hitems
  exact ⟨actions, locals, globals, hactions, hlocals, hdivides⟩

variable (hdecl : d.Declares vars functions) (hproper : ∀ e ∈ conditions, e.IsProper) (t₀ : Tables)
include hdecl hproper

theorem exists_buildPreconditions_iff :
    (∃ t, d.buildPreconditions t₀ = .ok () t) ↔ ∀ e ∈ conditions, e.walk ≠ none := by
  have hitems : d.preconditions.items = .ok (conditions.map Expr.datum) := by
    rw [hconditions]
    rfl
  have hcompletes := buildPreconditions_completesIff (hdecl.fluents_eq .action) hitems t₀
  rw [List.forall_mem_map] at hcompletes
  calc (∃ t, d.buildPreconditions t₀ = .ok () t)
    _ ↔ ∃ a t, d.buildPreconditions t₀ = .ok a t := exists_ok_iff
    _ ↔ ∀ e ∈ conditions, e.walk ≠ none :=
        hcompletes.trans (forall₂_congr fun e he => exists_scopeOf_iff (hproper e he))

theorem exists_build_iff : (∃ t, d.build t₀ = .ok () t) ↔ ∀ e ∈ conditions, d.CanPlace e := by
  have hfirst := exists_buildPreconditions_iff hconditions hdecl hproper t₀
  -- the second loop is reached only if no walk fails in the first
  by_cases hwalks : ∀ e ∈ conditions, e.walk ≠ none
  · obtain ⟨t, hrun⟩ := hfirst.mpr hwalks
    obtain ⟨actions, locals, globals, hactions, hlocals, hdivides⟩ :=
      exists_divides_of_buildPreconditions hconditions hrun
    calc (∃ t', d.build t₀ = .ok () t')
      _ ↔ ∃ a t', buildBounds t = .ok a t' := by rw [build_eq hrun, exists_ok_iff]
      _ ↔ ∀ c ∈ conditions.map Expr.datum, ∀ a, c.actionsIn actions = {a} →
            ∃ bound, bound? a c = .ok bound :=
          (exists_buildBounds_iff hlocals).trans
            (hdivides.forall_mem_entries_iff (P := fun a c => ∃ bound, bound? a c = .ok bound))
      _ ↔ ∀ e ∈ conditions, d.CanPlace e := by
          rw [List.forall_mem_map]
          exact forall₂_congr fun e he =>
            (canPlace_iff hdecl hactions (hproper e he) (hwalks e he)).symm
  · constructor
    · rintro ⟨t, hbuild⟩
      exact absurd (hfirst.mp (exists_buildPreconditions_of_build hbuild)) hwalks
    · intro hplace
      refine absurd (fun e he => ?_) hwalks
      obtain ⟨met, hmet, -⟩ := hplace e he
      simp [hmet]

/-- Where all walks end, there is only one thing that can fail. -/
theorem error_of_build (hwalks : ∀ e ∈ conditions, e.walk ≠ none) {t : Tables} {cause : Fault}
    (h : d.build t₀ = .error cause t) : cause = notAnExpression := by
  obtain ⟨t, hrun⟩ := (exists_buildPreconditions_iff hconditions hdecl hproper t₀).mpr hwalks
  obtain ⟨actions, locals, globals, hactions, hlocals, hdivides⟩ :=
    exists_divides_of_buildPreconditions hconditions hrun
  rw [build_eq hrun] at h
  obtain ⟨⟨a, cs⟩, hentry, c, hc, hbound⟩ := error_of_buildBounds hlocals h
  rw [(hdivides.mem_entries_iff.mp hentry).1] at hc
  obtain ⟨e, he, rfl⟩ := List.mem_map.mp (List.mem_of_mem_filter hc)
  cases hwide : e.isWide with
  | true => exact Except.error.inj (hbound.symm.trans (bound?_of_isWide (hproper e he) hwide a))
  | false => cases (bound?_eq (hproper e he) (hwalks e he) hwide a).symm.trans hbound

end Conditions

end Build

/-- **The tables of a domain can be built unless a local precondition quantifies over several
    variables.**  The preconditions of a domain that was read from a text are conditions that are
    written there.  Its tables are built exactly if the walk through each of them comes to its
    end and none of those with exactly one action fluent is a universal quantifier over several
    variables.  If all walks end, what fails is always this: a variable is taken for the body. -/
theorem build_of_verdict {line : Nat} {text : String} {m : Model}
    (h : (Reading.ofText line text).verdict = .model m) :
    ∃ conditions : List Expr, m.domain.preconditions = .list (conditions.map Expr.datum) ∧
      (∀ e ∈ conditions, ∃ ls, e.Written ls ∧ ls ⊆ (Scan.ofText line text).lexemes) ∧
      ∀ t₀, ((∃ t, m.domain.build t₀ = .ok () t) ↔
          ∀ e ∈ conditions, ∃ met, e.walk = some met ∧
            (e.isWide = true → ¬ ∃! f, f ∈ met ∧ f ∈ m.domain.declared .action)) ∧
        ((∀ e ∈ conditions, e.walk ≠ none) → (¬ ∃ t, m.domain.build t₀ = .ok () t) →
          ∃ t, m.domain.build t₀ = .error (.missingField "tuple" "etype") t) := by
  obtain ⟨doc, ls, b, -, -, hwritten, hsuffix, hb, -, -, -, hgives⟩ :=
    Model.exists_blocks_of_verdict h
  have hsource : ∀ e ∈ b.expressions "preconds",
      ∃ ls, e.Written ls ∧ ls ⊆ (Scan.ofText line text).lexemes := by
    intro e he
    obtain ⟨l, hl, hsub⟩ :=
      DomainBlock.exists_written_of_mem_expressions hwritten (mem_of_lastWith? hb) he
    exact ⟨l, hl, List.Subset.trans hsub hsuffix.subset⟩
  have hproper : ∀ e ∈ b.expressions "preconds", e.IsProper := by
    intro e he
    obtain ⟨l, hl, hsub⟩ := hsource e he
    exact Expr.isProper_of_written hl fun x hx => Scan.areSpelled_lexemes line text x (hsub hx)
  refine ⟨b.expressions "preconds", hgives.preconditions, hsource, fun t₀ => ⟨?_, ?_⟩⟩
  · exact exists_build_iff hgives.preconditions hgives.declares hproper t₀
  · intro hwalks hfails
    cases hrun : m.domain.build t₀ with
    | ok a t => exact absurd ⟨t, hrun⟩ hfails
    | error cause t =>
      -- the cause is the one that is named, whichever condition it comes from
      cases error_of_build hgives.preconditions hgives.declares hproper t₀ hwalks hrun
      exact ⟨t, rfl⟩

def wideText : String := "domain d \x7b
  types \x7b o : object; \x7d;
  pvariables \x7b
    a(o) : \x7b action-fluent, bool, default = false \x7d;
    b(o) : \x7b action-fluent, bool, default = false \x7d;
  \x7d;
  cpfs \x7b \x7d;
  reward = 1;
  action-preconditions \x7b
    forall_\x7b?x : o\x7d [a(?x) <= 1];
    forall_\x7b?x : o, ?y : o\x7d [a(?x) => b(?y)];
    (forall_\x7b?x : o, ?y : o\x7d [a(?x) => a(?y)]);
  \x7d;
\x7d
non-fluents n \x7b \x7d
instance i \x7b \x7d"

/-- The third condition is about `a` only and binds two variables. -/
theorem build_of_wideText :
    ∃ m t, (Reading.ofText 1 wideText).verdict = .model m ∧
      m.domain.build {} = .error (.missingField "tuple" "etype") t := by
  have hread : ((Reading.ofText 1 wideText).verdict.model?.map fun m =>
      (m.domain.preconditions.items.toOption.map fun conditions =>
        conditions.all fun c => c.scopeOf.toOption.isSome,
      (Build.tables? m.domain.build {}).isSome)) = some (some true, false) := by
    rw [wideText, Reading.ofText_eq_ofScan 1 rfl]
    decide +kernel
  obtain ⟨m, hmodel, hview⟩ := Option.map_eq_some_iff.mp hread
  rw [Prod.mk.injEq] at hview
  obtain ⟨hscopes, hfails⟩ := hview
  have hverdict := Verdict.eq_model_of_model? hmodel
  obtain ⟨conditions, hconditions, hsource, hbuild⟩ := build_of_verdict hverdict
  have hitems : m.domain.preconditions.items.toOption = some (conditions.map Expr.datum) := by
    rw [hconditions]
    rfl
  simp only [hitems, Option.map_some, Option.some.injEq, List.all_map, List.all_eq_true] at hscopes
  -- every scope could be listed, so the walks come to their ends
  have hwalks : ∀ e ∈ conditions, e.walk ≠ none := by
    intro e he
    obtain ⟨ls, hwritten, hsub⟩ := hsource e he
    have hproper : e.IsProper := Expr.isProper_of_written hwritten fun l hl =>
      Scan.areSpelled_lexemes 1 wideText l (hsub hl)
    obtain ⟨names, hnames⟩ := Option.isSome_iff_exists.mp (hscopes e he)
    exact (exists_scopeOf_iff hproper).mp ⟨names, toOption_eq_some.mp hnames⟩
  -- the build fails all the same, for which there is one cause left
  have hfailing : ¬ ∃ t, m.domain.build {} = .ok () t := by
    rintro ⟨t, ht⟩
    simp [Build.tables?, ht] at hfails
  obtain ⟨t, ht⟩ := (hbuild {}).2 hwalks hfailing
  exact ⟨m, t, hverdict, ht⟩

end Domain

end Rddl
