/-
  Rddl/Proofs/Domain/Bounds.lean
  ==============================
  **The bounds that a domain puts on its actions.**

  The second loop of building goes through the local preconditions of all actions and
  notes each bound under its action, so that a later one takes the place of an earlier one.
  For a domain that was read from a text the two tables hold, for each action, the bound in
  the last of its conditions that has one (`Domain.bounds_of_build`).

  A condition is local to an action if it has no other action fluent in its scope.  Its own
  action may stand in it twice, though, and then the bound depends on what it bounds
  (`Domain.actionScope_of_bounds`).
-/
import Rddl.Proofs.Domain.Building

namespace Rddl

open Build

/-! ### Tables of lists -/

theorem forM_flatMap {σ α β : Type} (xs : List α) (f : α → List β)
    (step : β → EStateM Fault σ PUnit) :
    (xs.flatMap f).forM step = xs.forM fun x => (f x).forM step := by
  have happend : ∀ ys zs : List β,
      (ys ++ zs).forM step = ys.forM step >>= fun _ => zs.forM step := by
    intro ys zs
    induction ys with
    | nil => exact (pure_bind _ _).symm
    | cons y ys ih =>
      change (step y >>= fun _ => (ys ++ zs).forM step) = _
      rw [ih, ← bind_assoc]
      rfl
  induction xs with
  | nil => rfl
  | cons x xs ih =>
    rw [List.flatMap_cons, happend, ih]
    rfl

namespace Table

variable {κ α : Type} [BEq κ] [LawfulBEq κ]

/-- The value under a key is that of the last entry with the key. -/
theorem find?_ofList_getLast? (entries : List (κ × α)) (key : κ) :
    (ofList entries).find? key = (entries.filter fun e => e.1 == key).getLast?.map Prod.snd := by
  rw [find?_ofList, List.getLast?_eq_head?_reverse, ← List.filter_reverse, List.head?_filter]

omit [BEq κ] [LawfulBEq κ] in
/-- The items of a table of lists, each with the key that it stands under. -/
def pairs (t : Table κ (List α)) : List (κ × α) :=
  t.entries.flatMap fun e => e.2.map fun x => (e.1, x)

theorem filter_pairs {t : Table κ (List α)} (hkeys : t.keys.Nodup) (key : κ) :
    t.pairs.filter (fun p => p.1 == key) = ((t.find? key).getD []).map fun x => (key, x) := by
  obtain ⟨entries⟩ := t
  simp only [pairs, keys, find?] at hkeys ⊢
  induction entries with
  | nil => rfl
  | cons e entries ih =>
    obtain ⟨k, xs⟩ := e
    rw [List.map_cons, List.nodup_cons] at hkeys
    rw [List.flatMap_cons, List.filter_append, ih hkeys.2, findEntry?]
    by_cases hk : k = key
    · subst hk
      -- the key stands nowhere else
      have hrest : findEntry? (· == ·) k entries = none := by
        rw [Option.eq_none_iff_forall_ne_some]
        intro ys hys
        exact hkeys.1 (mem_keys_of_find? (t := ⟨entries⟩) hys)
      simp [hrest]
    · simp [hk]

end Table

/-! ### The loop over the local conditions -/

namespace ActionBound

def lower? : ActionBound → Option Datum
  | .lower bound => some bound
  | .upper _ => none

def upper? : ActionBound → Option Datum
  | .lower _ => none
  | .upper bound => some bound

end ActionBound

namespace Domain

/-- The bounds of a sort that are found in conditions, each with its action. -/
def foundBounds (sort : ActionBound → Option Datum) (conditions : List (String × Datum)) :
    List (String × Datum) :=
  conditions.filterMap fun p =>
    ((bound? p.1 p.2).toOption.join.bind sort).map fun bound => (p.1, bound)

end Domain

namespace Tables

/-- Tables with the bounds that are found in conditions, each of them given with its action. -/
structure HasBounds (t : Tables) (conditions : List (String × Datum)) : Prop where
  lower : t.lowerBounds? = some (.ofList (Domain.foundBounds ActionBound.lower? conditions))
  upper : t.upperBounds? = some (.ofList (Domain.foundBounds ActionBound.upper? conditions))

end Tables

namespace Domain

theorem placeBound_ensures {done : List (String × Datum)} {p : String × Datum} :
    Ensures (fun t => t.HasBounds done) (placeBound p.1 p.2)
      (fun _ t => t.HasBounds (done ++ [p])) (fun t => t.HasBounds done) := by
  rw [placeBound_eq]
  refine .bind (.lift _ fun _ ht => ht) fun bound => .modify ?_
  rintro t ⟨hbound, ht⟩
  -- one more condition adds one entry to one of the tables, or none
  rcases bound with _ | ⟨bound⟩ | ⟨bound⟩ <;> constructor <;>
    simp [foundBounds, Table.ofList_append, hbound, Except.toOption, ActionBound.lower?,
      ActionBound.upper?, Tables.setBound, Tables.setLower, Tables.setUpper, ht.lower, ht.upper]

theorem hasBounds_of_buildBounds {t t' : Tables} {locals : Table String (List Datum)}
    (hlocals : t.localPreconditions? = some locals) (h : buildBounds t = .ok () t') :
    t'.HasBounds locals.pairs := by
  have hloop : Ensures _ (locals.pairs.forM fun p => placeBound p.1 p.2) _ _ :=
    .forM (J := fun done t => t.HasBounds done) fun _ _ => placeBound_ensures
  have hrun : buildBounds t = (locals.pairs.forM fun p => placeBound p.1 p.2)
      { t with lowerBounds? := some .empty, upperBounds? := some .empty } := by
    rw [buildBounds_eq hlocals, Table.pairs, forM_flatMap]
    simp only [List.forM_eq_forM, List.forM_map]
  rcases hloop { t with lowerBounds? := some .empty, upperBounds? := some .empty } ⟨rfl, rfl⟩ with
    ⟨_, u, hu, hbounds⟩ | ⟨cause, u, hu, -⟩
  · cases h.symm.trans (hrun.trans hu)
    exact hbounds
  · cases h.symm.trans (hrun.trans hu)

end Domain

/-! ### The last bound of each action -/

namespace Expr

theorem lower?_actionBound? (name : String) (e : Expr) :
    (e.actionBound? name).bind ActionBound.lower? = (e.boundBelow? name).map datum := by
  cases hbelow : e.boundBelow? name <;> cases habove : e.boundAbove? name <;>
    simp [actionBound?, hbelow, habove, ActionBound.lower?]

/-- A condition that bounds from below does not bound from above. -/
theorem boundAbove?_of_boundBelow? {name : String} {e bound : Expr}
    (h : e.boundBelow? name = some bound) : e.boundAbove? name = none := by
  obtain ⟨c, hc, hbound⟩ := Option.bind_eq_some_iff.mp h
  simp [boundAbove?, hc, hbound]

theorem upper?_actionBound? (name : String) (e : Expr) :
    (e.actionBound? name).bind ActionBound.upper? = (e.boundAbove? name).map datum := by
  cases hbelow : e.boundBelow? name with
  | some bound =>
    simp [actionBound?, hbelow, boundAbove?_of_boundBelow? hbelow, ActionBound.upper?]
  | none => cases habove : e.boundAbove? name <;>
      simp [actionBound?, hbelow, habove, ActionBound.upper?]

end Expr

namespace Table

/-- A table has for each action the bound in the last of its own conditions that has one, and
    no other key. -/
structure HoldsLast (table : Table String Datum) (own : String → List Expr)
    (bound? : String → Expr → Option Expr) : Prop where
  nodup_keys : table.keys.Nodup
  mem_keys_iff : ∀ a, a ∈ table.keys ↔ ∃ e ∈ own a, ∃ bound, bound? a e = some bound
  find?_eq : ∀ a, table.find? a = ((own a).filterMap (bound? a)).getLast?.map Expr.datum

theorem HoldsLast.of_find? {table : Table String Datum} {own : String → List Expr}
    {bound? : String → Expr → Option Expr} (hkeys : table.keys.Nodup)
    (h : ∀ a, table.find? a = ((own a).filterMap (bound? a)).getLast?.map Expr.datum) :
    table.HoldsLast own bound? := by
  refine ⟨hkeys, fun a => ?_, h⟩
  rw [← contains_iff_mem_keys, contains, h a, Option.isSome_map, List.getLast?_isSome, ne_eq,
    List.filterMap_eq_nil_iff]
  simp only [not_forall, exists_prop, ← ne_eq, Option.ne_none_iff_exists']

end Table

namespace Domain

def conditionsOn (d : Domain) (conditions : List Expr) (a : String) : List Expr :=
  conditions.filter fun e => d.actionScope e.datum = {a}

theorem holdsLast_foundBounds {locals : Table String (List Datum)} {own : String → List Expr}
    {sort : ActionBound → Option Datum} {bound?' : String → Expr → Option Expr}
    (hkeys : locals.keys.Nodup) (hlocals : ∀ a, (locals.find? a).getD [] = (own a).map Expr.datum)
    (hbound : ∀ a, ∀ e ∈ own a,
      (bound? a e.datum).toOption.join.bind sort = (bound?' a e).map Expr.datum) :
    (Table.ofList (foundBounds sort locals.pairs)).HoldsLast own bound?' := by
  refine .of_find? (Table.nodup_keys_ofList _) fun a => ?_
  -- the bounds found for `a` are those of its own conditions, in their order
  have hfilter : (foundBounds sort locals.pairs).filter (fun p => p.1 == a) =
      ((own a).filterMap (bound?' a)).map fun bound => (a, bound.datum) := by
    calc (foundBounds sort locals.pairs).filter (fun p => p.1 == a)
      _ = foundBounds sort (locals.pairs.filter fun p => p.1 == a) := by
          rw [foundBounds, foundBounds, List.filter_filterMap, List.filterMap_filter]
          refine List.filterMap_congr fun p _ => ?_
          by_cases hp : p.1 = a <;> cases (bound? p.1 p.2).toOption.join.bind sort <;> simp [hp]
      _ = (own a).filterMap fun e => (bound?' a e).map fun bound => (a, bound.datum) := by
          rw [Table.filter_pairs hkeys, hlocals, foundBounds, List.map_map, List.filterMap_map]
          refine List.filterMap_congr fun e he => ?_
          simp only [Function.comp, hbound a e he, Option.map_map]
          rfl
      _ = ((own a).filterMap (bound?' a)).map fun bound => (a, bound.datum) :=
          (List.map_filterMap ..).symm
  rw [Table.find?_ofList_getLast?, hfilter, List.getLast?_map, Option.map_map]
  rfl

section Conditions

variable {d : Domain} {vars : List PVarDecl} {functions : List CpfDecl} {conditions : List Expr}
  {actions : Table String PVariable} {t₀ t : Tables}

theorem actionScope_eq (hactions : d.fluents .action = .ok actions) (condition : Datum) :
    d.actionScope condition = condition.actionsIn actions := by
  rw [actionScope, hactions]
  rfl

variable (hconditions : d.preconditions = .list (conditions.map Expr.datum))
  (hdecl : d.Declares vars functions) (hproper : ∀ e ∈ conditions, e.IsProper)
  (h : d.build t₀ = .ok () t)
include hconditions hdecl hproper h

/-- Where building succeeds, a local condition binds one variable at most. -/
theorem bound?_of_mem_conditionsOn {a : String} {e : Expr} (he : e ∈ d.conditionsOn conditions a) :
    bound? a e.datum = .ok (e.actionBound? a) := by
  obtain ⟨hmem, hscope⟩ := List.mem_filter.mp he
  have hactions := hdecl.fluents_eq .action
  have hplace := (exists_build_iff hconditions hdecl hproper t₀).mp ⟨t, h⟩ e hmem
  have hwalk : e.walk ≠ none := by
    obtain ⟨met, hmet, -⟩ := hplace
    simp [hmet]
  rw [decide_eq_true_eq, actionScope_eq hactions] at hscope
  obtain ⟨bound, hbound⟩ :=
    (canPlace_iff hdecl hactions (hproper e hmem) hwalk).mp hplace a hscope
  cases hwide : e.isWide with
  | true => cases (bound?_of_isWide (hproper e hmem) hwide a).symm.trans hbound
  | false => exact bound?_eq (hproper e hmem) hwalk hwide a

/-- The tables of local conditions and of bounds, in terms of the expressions. -/
theorem exists_holdsLast_of_build :
    ∃ locals lowers uppers, t.localPreconditions? = some locals ∧
      t.lowerBounds? = some lowers ∧ t.upperBounds? = some uppers ∧
      (∀ a, (locals.find? a).getD [] = (d.conditionsOn conditions a).map Expr.datum) ∧
      lowers.HoldsLast (d.conditionsOn conditions) Expr.boundBelow? ∧
      uppers.HoldsLast (d.conditionsOn conditions) Expr.boundAbove? := by
  obtain ⟨t', hfirst⟩ := exists_buildPreconditions_of_build h
  obtain ⟨actions, locals, globals, hactions, hlocals, hdivides⟩ :=
    exists_divides_of_buildPreconditions hconditions hfirst
  have hsecond : buildBounds t' = .ok () t := (build_eq hfirst).symm.trans h
  -- the second step reads the local conditions and leaves them as they are
  have hkept : t.localPreconditions? = some locals := by
    have hsame := (buildBounds_keeps t'.localPreconditions? t'.globalPreconditions?).of_ok
      ⟨rfl, rfl⟩ hsecond
    rw [hsame.1, hlocals]
  have hbounds := hasBounds_of_buildBounds hlocals hsecond
  have hown : ∀ a, (locals.find? a).getD [] = (d.conditionsOn conditions a).map Expr.datum := by
    intro a
    rw [hdivides.found a, List.filter_map, conditionsOn]
    simp only [Function.comp_def, actionScope_eq hactions]
  refine ⟨locals, _, _, hkept, hbounds.lower, hbounds.upper, hown, ?_, ?_⟩
  · refine holdsLast_foundBounds hdivides.nodup_keys hown fun a e he => ?_
    rw [bound?_of_mem_conditionsOn hconditions hdecl hproper h he]
    exact e.lower?_actionBound? a
  · refine holdsLast_foundBounds hdivides.nodup_keys hown fun a e he => ?_
    rw [bound?_of_mem_conditionsOn hconditions hdecl hproper h he]
    exact e.upper?_actionBound? a

end Conditions

/-- The preconditions of a domain that was read from a text are written there. -/
theorem exists_conditions_of_verdict {line : Nat} {text : String} {m : Model}
    (h : (Reading.ofText line text).verdict = .model m) :
    ∃ vars functions, ∃ conditions : List Expr, m.domain.Declares vars functions ∧
      m.domain.preconditions = .list (conditions.map Expr.datum) ∧
      (∀ e ∈ conditions, ∃ ls, e.Written ls ∧ ls ⊆ (Scan.ofText line text).lexemes) ∧
      ∀ e ∈ conditions, e.IsProper := by
  obtain ⟨doc, ls, b, -, -, hwritten, hsuffix, hb, -, -, -, hgives⟩ :=
    Model.exists_blocks_of_verdict h
  have hsource : ∀ e ∈ b.expressions "preconds",
      ∃ ls, e.Written ls ∧ ls ⊆ (Scan.ofText line text).lexemes := by
    intro e he
    obtain ⟨l, hl, hsub⟩ :=
      DomainBlock.exists_written_of_mem_expressions hwritten (mem_of_lastWith? hb) he
    exact ⟨l, hl, List.Subset.trans hsub hsuffix.subset⟩
  refine ⟨b.vars, b.functions, _, hgives.declares, hgives.preconditions, hsource, fun e he => ?_⟩
  obtain ⟨l, hl, hsub⟩ := hsource e he
  exact Expr.isProper_of_written hl fun x hx => Scan.areSpelled_lexemes line text x (hsub hx)

/-- The conditions about one action alone are about a declared one. -/
theorem exists_declared_of_mem_conditionsOn {d : Domain} {vars : List PVarDecl}
    {functions : List CpfDecl} (hdecl : d.Declares vars functions) {conditions : List Expr}
    {a : String} {e : Expr} (he : e ∈ d.conditionsOn conditions a) :
    ∃ f ∈ d.declared .action, f.name = a := by
  have hactions := hdecl.fluents_eq .action
  have hscope : e.datum.actionsIn _ = {a} :=
    (actionScope_eq hactions _).symm.trans (of_decide_eq_true (List.mem_filter.mp he).2)
  have hmem : a ∈ e.datum.actionsIn _ := hscope ▸ Finset.mem_singleton_self a
  rw [Datum.actionsIn, Finset.mem_inter, List.mem_toFinset] at hmem
  exact (hdecl.mem_keys_iff hactions).mp (List.mem_toFinset.mp hmem.2)

/-- **The bounds of actions are those in the last conditions that have some.**  Take a domain
    that was read from a text and could be built.  Its local preconditions are, for each
    action, the conditions about it alone.  The table of lower bounds has an action for a key
    exactly if one of these conditions bounds it from below, and holds the bound in the last
    such condition; so does the table of upper bounds, where a condition counts only if it
    does not bound from below.  No other keys are in the two tables. -/
theorem bounds_of_build {line : Nat} {text : String} {m : Model}
    (h : (Reading.ofText line text).verdict = .model m) {t₀ t : Tables}
    (hbuild : m.domain.build t₀ = .ok () t) :
    ∃ (conditions : List Expr) (locals : Table String (List Datum))
      (lowers uppers : Table String Datum),
      m.domain.preconditions = .list (conditions.map Expr.datum) ∧
      (∀ e ∈ conditions, ∃ ls, e.Written ls ∧ ls ⊆ (Scan.ofText line text).lexemes) ∧
      t.localPreconditions? = some locals ∧ t.lowerBounds? = some lowers ∧
      t.upperBounds? = some uppers ∧
      (∀ a, (locals.find? a).getD [] = (m.domain.conditionsOn conditions a).map Expr.datum) ∧
      (∀ a, ∀ e ∈ m.domain.conditionsOn conditions a,
        ∃ f ∈ m.domain.declared .action, f.name = a) ∧
      lowers.HoldsLast (m.domain.conditionsOn conditions) Expr.boundBelow? ∧
      uppers.HoldsLast (m.domain.conditionsOn conditions) Expr.boundAbove? := by
  obtain ⟨vars, functions, conditions, hdecl, hconditions, hsource, hproper⟩ :=
    exists_conditions_of_verdict h
  obtain ⟨locals, lowers, uppers, hlocals, hlowers, huppers, hown, hbelow, habove⟩ :=
    exists_holdsLast_of_build hconditions hdecl hproper hbuild
  exact ⟨conditions, locals, lowers, uppers, hconditions, hsource, hlocals, hlowers, huppers, hown,
    fun _ _ he => exists_declared_of_mem_conditionsOn hdecl he, hbelow, habove⟩

def boundedText : String := "domain d \x7b
  types \x7b o : object; \x7d;
  pvariables \x7b
    a : \x7b action-fluent, real, default = 0.0 \x7d;
    b(o) : \x7b action-fluent, real, default = 0.0 \x7d;
    x : \x7b state-fluent, real, default = 0.0 \x7d;
  \x7d;
  cpfs \x7b \x7d;
  reward = 1;
  action-preconditions \x7b
    0 <= a;
    (a) >= [x];
    a == 2;
    a < 5;
    forall_\x7b?y : o\x7d [7 > b(?y)];
  \x7d;
\x7d
non-fluents n \x7b \x7d
instance i \x7b \x7d"

/-- The lower bound of `a` is the later one, in its brackets; `b` is bounded below a
    quantifier, from above only. -/
theorem bounds_of_boundedText :
    ∃ m t, ∃ conditions : List Expr, (Reading.ofText 1 boundedText).verdict = .model m ∧
      m.domain.build {} = .ok () t ∧ m.domain.preconditions = .list (conditions.map Expr.datum) ∧
      ((m.domain.conditionsOn conditions "a/0").filterMap (Expr.boundBelow? "a/0")).getLast?.map
        Expr.datum = some (Expr.group .square (.occurrence ⟨"x", none⟩)).datum ∧
      ((m.domain.conditionsOn conditions "a/0").filterMap (Expr.boundAbove? "a/0")).getLast?.map
        Expr.datum = some (Expr.integer 5).datum ∧
      (¬ ∃ e ∈ m.domain.conditionsOn conditions "b/1", ∃ bound, e.boundBelow? "b/1" = some bound) ∧
      ((m.domain.conditionsOn conditions "b/1").filterMap (Expr.boundAbove? "b/1")).getLast?.map
        Expr.datum = some (Expr.integer 7).datum := by
  have hread : ((Reading.ofText 1 boundedText).verdict.model?.bind fun m =>
      (Build.tables? m.domain.build {}).map fun t =>
        (t.lowerBounds?.map Table.entries, t.upperBounds?.map Table.entries)) =
      some (some [("a/0", (Expr.group .square (.occurrence ⟨"x", none⟩)).datum)],
        some [("a/0", (Expr.integer 5).datum), ("b/1", (Expr.integer 7).datum)]) := by
    rw [boundedText, Reading.ofText_eq_ofScan 1 rfl]
    decide +kernel
  obtain ⟨m, hmodel, hview⟩ := Option.bind_eq_some_iff.mp hread
  obtain ⟨t, ht, hview⟩ := Option.map_eq_some_iff.mp hview
  rw [Prod.mk.injEq] at hview
  have hverdict := Verdict.eq_model_of_model? hmodel
  have hbuild := Build.eq_ok_of_tables? ht
  obtain ⟨conditions, _, lowers, uppers, hconditions, -, -, hlowers, huppers, -, -, hbelow,
    habove⟩ := bounds_of_build hverdict hbuild
  rw [hlowers, huppers, Option.map_some, Option.map_some, Option.some_inj, Option.some_inj] at hview
  obtain ⟨hlower, hupper⟩ := hview
  -- of the tables that were built nothing but their entries is needed
  refine ⟨m, t, conditions, hverdict, hbuild, hconditions, ?_, ?_, ?_, ?_⟩
  · rw [← hbelow.find?_eq, Table.find?, hlower]
    rfl
  · rw [← habove.find?_eq, Table.find?, hupper]
    rfl
  · rw [← hbelow.mem_keys_iff, Table.keys, hlower]
    decide
  · rw [← habove.find?_eq, Table.find?, hupper]
    rfl

end Domain

/-! ### Actions in bounds -/

namespace Expr

theorem both_eq_some {met met' : Option (List Fluent)} {fluents : List Fluent}
    (h : both met met' = some fluents) :
    ∃ first second, met = some first ∧ met' = some second ∧ first ++ second = fluents := by
  obtain ⟨first, hfirst, h⟩ := Option.bind_eq_some_iff.mp h
  obtain ⟨second, hsecond, h⟩ := Option.map_eq_some_iff.mp h
  exact ⟨first, second, hfirst, hsecond, h⟩

/-- The walk through an expression meets a fluent with the given name. -/
def Meets (e : Expr) (name : String) : Prop := ∃ met, e.walk = some met ∧ ∃ f ∈ met, f.name = name

/-- An expression is inside another one, and what the walk meets there it meets on its way. -/
structure Inside (part e : Expr) : Prop where
  isProper : e.IsProper → part.IsProper
  walk : ∀ met, e.walk = some met → ∃ met', part.walk = some met' ∧ met' ⊆ met

namespace Inside

theorem trans {e e' e'' : Expr} (h : Inside e e') (h' : Inside e' e'') : Inside e e'' := by
  refine ⟨fun hproper => h.isProper (h'.isProper hproper), fun met hmet => ?_⟩
  obtain ⟨met', hmet', hsub'⟩ := h'.walk met hmet
  obtain ⟨met'', hmet'', hsub''⟩ := h.walk met' hmet'
  exact ⟨met'', hmet'', List.Subset.trans hsub'' hsub'⟩

theorem bare (e : Expr) : Inside e.bare e :=
  ⟨IsProper.bare, fun met hmet => ⟨met, by rwa [walk_bare], List.Subset.refl met⟩⟩

theorem body (quantifier : Quantifier) (vars : List TypedVar) (body : Expr) :
    Inside body (.quantified quantifier vars body) := by
  refine ⟨fun hproper => hproper.child List.mem_cons_self, fun met hmet => ?_⟩
  rw [Expr.walk] at hmet
  split at hmet
  · cases hmet
  · exact ⟨met, hmet, List.Subset.refl met⟩

theorem left (op : BinaryOp) (left right : Expr) : Inside left (.binary op left right) := by
  refine ⟨fun hproper => hproper.child (by simp [children]), fun met hmet => ?_⟩
  obtain ⟨first, second, hfirst, -, rfl⟩ := both_eq_some hmet
  exact ⟨first, hfirst, List.subset_append_left first second⟩

theorem right (op : BinaryOp) (left right : Expr) : Inside right (.binary op left right) := by
  refine ⟨fun hproper => hproper.child (by simp [children]), fun met hmet => ?_⟩
  obtain ⟨first, second, -, hsecond, rfl⟩ := both_eq_some hmet
  exact ⟨second, hsecond, List.subset_append_right first second⟩

theorem of_relation? {e c : Expr} (h : e.relation? = some c) : Inside c e := by
  obtain ⟨op, left, right, hbare, -, rfl⟩ := relation?_eq_some h
  exact hbare ▸ bare e

theorem of_core? {e c : Expr} (h : e.core? = some c) : Inside c e := by
  rw [core?] at h
  split at h
  · next vars body hbare =>
    exact (of_relation? h).trans ((Inside.body .universal vars body).trans (hbare ▸ bare e))
  · exact of_relation? h

/-- A bound is one side of a comparison. -/
theorem of_forms {name : String} {c bound : Expr}
    (h : c.lowerForm? name = some bound ∨ c.upperForm? name = some bound) : Inside bound c := by
  rw [lowerForm?.eq_def, upperForm?.eq_def] at h
  grind [Inside.left, Inside.right]

theorem of_bound {name : String} {e bound : Expr}
    (h : e.boundBelow? name = some bound ∨ e.boundAbove? name = some bound) : Inside bound e := by
  rcases h with h | h
  · obtain ⟨c, hc, hbound⟩ := Option.bind_eq_some_iff.mp h
    exact (of_forms (.inl hbound)).trans (of_core? hc)
  · obtain ⟨c, hc, hbound⟩ := Option.bind_eq_some_iff.mp h
    split at hbound
    · cases hbound
    · exact (of_forms (.inr hbound)).trans (of_core? hc)

end Inside

end Expr

theorem Table.HoldsLast.mem_entries_iff {table : Table String Datum} {own : String → List Expr}
    {bound? : String → Expr → Option Expr} (h : table.HoldsLast own bound?) {a : String}
    {d : Datum} :
    (a, d) ∈ table.entries ↔
      ∃ bound, ((own a).filterMap (bound? a)).getLast? = some bound ∧ bound.datum = d := by
  rw [Table.mem_entries_iff_find? h.nodup_keys, h.find?_eq, Option.map_eq_some_iff]

namespace Domain

/-- The bounds that count for an action: the last from below and the last from above. -/
def lastBounds (d : Domain) (conditions : List Expr) (a : String) : List Expr :=
  [Expr.boundBelow? a, Expr.boundAbove? a].filterMap fun bound? =>
    ((d.conditionsOn conditions a).filterMap bound?).getLast?

section Scopes

variable {d : Domain} {vars : List PVarDecl} {functions : List CpfDecl} {conditions : List Expr}
  {t₀ t : Tables}

theorem exists_of_mem_lastBounds {a : String} {bound : Expr}
    (h : bound ∈ d.lastBounds conditions a) :
    ∃ e ∈ d.conditionsOn conditions a, bound.Inside e := by
  simp only [lastBounds, List.mem_filterMap, List.mem_cons, List.not_mem_nil, or_false] at h
  obtain ⟨bound?, hsort, hlast⟩ := h
  obtain ⟨e, he, hbound⟩ := List.mem_filterMap.mp (List.mem_of_getLast? hlast)
  refine ⟨e, he, @Expr.Inside.of_bound a _ _ ?_⟩
  rcases hsort with rfl | rfl
  · exact .inl hbound
  · exact .inr hbound

variable (hdecl : d.Declares vars functions)
include hdecl

theorem mem_actionScope_iff {e : Expr} (h : e.IsProper) {met : List Fluent}
    (hmet : e.walk = some met) {name : String} :
    name ∈ d.actionScope e.datum ↔ ∃ f, (f ∈ met ∧ f ∈ d.declared .action) ∧ f.name = name := by
  rw [actionScope_eq (hdecl.fluents_eq .action)]
  exact mem_actionsIn_iff hdecl (hdecl.fluents_eq .action) h hmet

/-- What is inside a condition about one action has no other action in its scope, and has that
    one if the walk meets it. -/
theorem actionScope_of_inside {e bound : Expr} {a : String} {met : List Fluent}
    (h : e.IsProper) (hmet : e.walk = some met) (he : e ∈ d.conditionsOn conditions a)
    (hinside : bound.Inside e) :
    (∃ names, bound.datum.scopeOf = .ok names) ∧ d.actionScope bound.datum ⊆ {a} ∧
      (d.actionScope bound.datum = ∅ ↔ ¬ bound.Meets a) := by
  have hbound := hinside.isProper h
  obtain ⟨met', hmet', hsub⟩ := hinside.walk met hmet
  have hscope : d.actionScope e.datum = {a} := of_decide_eq_true (List.mem_filter.mp he).2
  have hmem : ∀ {name}, name ∈ d.actionScope bound.datum ↔ _ :=
    mem_actionScope_iff hdecl hbound hmet'
  -- a bound is inside its condition, which meets one action only
  have honly : d.actionScope bound.datum ⊆ {a} := by
    intro name hname
    obtain ⟨f, ⟨hf, hdeclared⟩, rfl⟩ := hmem.mp hname
    rw [← hscope, mem_actionScope_iff hdecl h hmet]
    exact ⟨f, ⟨hsub hf, hdeclared⟩, rfl⟩
  refine ⟨(exists_scopeOf_iff hbound).mpr (by simp [hmet']), honly, ?_⟩
  constructor
  · rintro hempty ⟨met'', hmet'', f, hf, hname⟩
    cases hmet'.symm.trans hmet''
    -- what is met under the name of the action is the action: names tell fluents apart
    obtain ⟨g, hg, hgname⟩ := exists_declared_of_mem_conditionsOn hdecl he
    cases Fluent.name_injective (hgname.trans hname.symm)
    have hown : a ∈ d.actionScope bound.datum := hmem.mpr ⟨f, ⟨hf, hg⟩, hname⟩
    rw [hempty] at hown
    exact absurd hown (Finset.notMem_empty a)
  · intro hnot
    rw [Finset.eq_empty_iff_forall_notMem]
    intro name hname
    obtain ⟨f, ⟨hf, -⟩, hfname⟩ := hmem.mp hname
    rw [Finset.mem_singleton.mp (honly hname)] at hfname
    exact hnot ⟨met', hmet', f, hf, hfname⟩

end Scopes

/-- **A bound depends on no other action, but may depend on the one that it bounds.**  Take a
    domain that was read from a text and could be built.  The expressions in its two tables of
    bounds are the bounds that count for each action.  Each of them has a scope, and the only
    action fluent in it can be the action that is bounded.  So no bound has an action fluent in
    its scope if and only if no bound that counts meets its own action. -/
theorem actionScope_of_bounds {line : Nat} {text : String} {m : Model}
    (h : (Reading.ofText line text).verdict = .model m) {t₀ t : Tables}
    (hbuild : m.domain.build t₀ = .ok () t) :
    ∃ (conditions : List Expr) (lowers uppers : Table String Datum),
      m.domain.preconditions = .list (conditions.map Expr.datum) ∧
      t.lowerBounds? = some lowers ∧ t.upperBounds? = some uppers ∧
      (∀ a bound, (a, bound) ∈ lowers.entries ++ uppers.entries ↔
        ∃ b ∈ m.domain.lastBounds conditions a, b.datum = bound) ∧
      (∀ a bound, (a, bound) ∈ lowers.entries ++ uppers.entries →
        (∃ names, bound.scopeOf = .ok names) ∧ m.domain.actionScope bound ⊆ {a}) ∧
      ((∀ a bound, (a, bound) ∈ lowers.entries ++ uppers.entries →
          m.domain.actionScope bound = ∅) ↔
        ∀ a, ∀ b ∈ m.domain.lastBounds conditions a, ¬ b.Meets a) := by
  obtain ⟨vars, functions, conditions, hdecl, hconditions, -, hproper⟩ :=
    exists_conditions_of_verdict h
  obtain ⟨locals, lowers, uppers, -, hlowers, huppers, -, hbelow, habove⟩ :=
    exists_holdsLast_of_build hconditions hdecl hproper hbuild
  -- the bounds in the two tables are those that count
  have hentries : ∀ a bound, (a, bound) ∈ lowers.entries ++ uppers.entries ↔
      ∃ b ∈ m.domain.lastBounds conditions a, b.datum = bound := by
    intro a bound
    simp [hbelow.mem_entries_iff, habove.mem_entries_iff, lastBounds, or_and_right, exists_or]
  -- a bound is a part of a condition about its action alone, so no other action is in it
  have hscopes : ∀ a, ∀ b ∈ m.domain.lastBounds conditions a,
      (∃ names, b.datum.scopeOf = .ok names) ∧ m.domain.actionScope b.datum ⊆ {a} ∧
        (m.domain.actionScope b.datum = ∅ ↔ ¬ b.Meets a) := by
    intro a b hb
    obtain ⟨e, he, hinside⟩ := exists_of_mem_lastBounds hb
    have hmem := (List.mem_filter.mp he).1
    obtain ⟨met, hmet, -⟩ :=
      (exists_build_iff hconditions hdecl hproper t₀).mp ⟨t, hbuild⟩ e hmem
    exact actionScope_of_inside hdecl (hproper e hmem) hmet he hinside
  refine ⟨conditions, lowers, uppers, hconditions, hlowers, huppers, hentries, ?_, ?_⟩
  · intro a bound hmem
    obtain ⟨b, hb, rfl⟩ := (hentries a bound).mp hmem
    exact ⟨(hscopes a b hb).1, (hscopes a b hb).2.1⟩
  · constructor
    · intro hempty a b hb
      exact (hscopes a b hb).2.2.mp (hempty a b.datum ((hentries a _).mpr ⟨b, hb, rfl⟩))
    · intro hmeets a bound hmem
      obtain ⟨b, hb, rfl⟩ := (hentries a bound).mp hmem
      exact (hscopes a b hb).2.2.mpr (hmeets a b hb)

def selfBoundedText : String := "domain d \x7b
  pvariables \x7b
    a : \x7b action-fluent, real, default = 0.0 \x7d;
    x : \x7b state-fluent, real, default = 0.0 \x7d;
  \x7d;
  cpfs \x7b \x7d;
  reward = 1;
  action-preconditions \x7b
    x <= a;
    a <= a + 1;
  \x7d;
\x7d
non-fluents n \x7b \x7d
instance i \x7b \x7d"

/-- The upper bound of `a` is `a + 1`. -/
theorem actionScope_of_selfBoundedText :
    ∃ m t, ∃ conditions : List Expr, (Reading.ofText 1 selfBoundedText).verdict = .model m ∧
      m.domain.build {} = .ok () t ∧ m.domain.preconditions = .list (conditions.map Expr.datum) ∧
      ∃ b ∈ m.domain.lastBounds conditions "a/0",
        b.datum = (Expr.binary .plus (.occurrence ⟨"a", none⟩) (.integer 1)).datum ∧
        m.domain.actionScope b.datum = {"a/0"} := by
  have hread : ((Reading.ofText 1 selfBoundedText).verdict.model?.bind fun m =>
      (Build.tables? m.domain.build {}).map fun t =>
        (t.upperBounds?.map Table.entries, m.domain.actionScope
          (Expr.binary .plus (.occurrence ⟨"a", none⟩) (.integer 1)).datum)) =
      some (some [("a/0", (Expr.binary .plus (.occurrence ⟨"a", none⟩) (.integer 1)).datum)],
        {"a/0"}) := by
    rw [selfBoundedText, Reading.ofText_eq_ofScan 1 rfl]
    decide +kernel
  obtain ⟨m, hmodel, hview⟩ := Option.bind_eq_some_iff.mp hread
  obtain ⟨t, ht, hview⟩ := Option.map_eq_some_iff.mp hview
  rw [Prod.mk.injEq] at hview
  have hverdict := Verdict.eq_model_of_model? hmodel
  have hbuild := Build.eq_ok_of_tables? ht
  obtain ⟨conditions, lowers, uppers, hconditions, -, huppers, hentries, -, -⟩ :=
    actionScope_of_bounds hverdict hbuild
  rw [huppers, Option.map_some, Option.some_inj] at hview
  have hmem : ("a/0", (Expr.binary .plus (.occurrence ⟨"a", none⟩) (.integer 1)).datum) ∈
      lowers.entries ++ uppers.entries := by simp [hview.1]
  obtain ⟨b, hb, hdatum⟩ := (hentries _ _).mp hmem
  exact ⟨m, t, conditions, hverdict, hbuild, hconditions, b, hb, hdatum, by rw [hdatum, hview.2]⟩

end Domain

end Rddl
