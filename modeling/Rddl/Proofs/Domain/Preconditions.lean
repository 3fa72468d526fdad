/-
  Rddl/Proofs/Domain/Preconditions.lean
  =====================================
  **Local and global preconditions.**

  Preconditions are placed one after another: under an action if it is the only action
  fluent in the scope of the condition, else among the global ones.  The loop has one
  invariant (`Divides`): under each action stand the conditions about it alone, in their
  order, and nothing is lost or placed twice.  A scope is a set, and the order in which its
  names are looked at does not matter (`buildIn_eq_build`).

  Finding the bounds that local preconditions put on actions is a second loop, which leaves
  the conditions where they are; what one condition adds to it is `bound?`.
-/
import Mathlib.Data.Finset.Card
import Mathlib.Data.Finset.Dedup
import Rddl.Proofs.Datum.Equality
import Rddl.Proofs.Model.Grounding

namespace Rddl

open Build

theorem Build.lift_bind {α β : Type} (x : Except Fault α) (f : α → Except Fault β) :
    Build.lift (x >>= f) = Build.lift x >>= fun a => Build.lift (f a) := by
  cases x <;> rfl

/-! ### Scopes -/

namespace Datum

theorem nodup_of_scopeOf {condition : Datum} {names : List String}
    (h : condition.scopeOf = .ok names) : names.Nodup := by
  obtain ⟨t, -, h⟩ := except_bind_eq_ok.mp h
  obtain ⟨met, -, h⟩ := except_bind_eq_ok.mp h
  cases h
  exact nodup_eraseDups _

def actionsIn (actions : Table String PVariable) (condition : Datum) : Finset String :=
  (condition.scopeOf.toOption.getD []).toFinset ∩ actions.keys.toFinset

end Datum

namespace Domain

/-- The only action fluent among some names, if there is exactly one. -/
def soleAction? (actions : Table String PVariable) (names : List String) : Option String :=
  let met := names.filter actions.contains
  if met.length = 1 then met.head? else none

variable {actions : Table String PVariable} {condition : Datum} {names : List String}

theorem soleAction?_eq_of_perm {names' : List String} (h : names'.Perm names) :
    soleAction? actions names' = soleAction? actions names := by
  have hmet := h.filter actions.contains
  simp only [soleAction?, hmet.length_eq]
  by_cases hone : (names.filter actions.contains).length = 1
  · obtain ⟨a, ha⟩ := List.length_eq_one_iff.mp hone
    rw [ha] at hmet ⊢
    rw [List.perm_singleton.mp hmet]
  · rw [if_neg hone, if_neg hone]

theorem soleAction?_eq_some_iff (h : condition.scopeOf = .ok names) {a : String} :
    soleAction? actions names = some a ↔ condition.actionsIn actions = {a} := by
  have hmet : condition.actionsIn actions = (names.filter actions.contains).toFinset := by
    ext name
    simp [Datum.actionsIn, h, Except.toOption, Table.contains_iff_mem_keys]
  -- without repetition the length of the list is the cardinality of the set
  have hnodup := (Datum.nodup_of_scopeOf h).filter actions.contains
  rw [hmet, soleAction?]
  constructor
  · intro hsole
    split at hsole
    · next hone =>
      obtain ⟨b, hb⟩ := List.length_eq_one_iff.mp hone
      rw [hb] at hsole ⊢
      cases hsole
      rfl
    · cases hsole
  · intro hset
    have hone : (names.filter actions.contains).length = 1 := by
      rw [← List.toFinset_card_of_nodup hnodup, hset, Finset.card_singleton]
    obtain ⟨b, hb⟩ := List.length_eq_one_iff.mp hone
    rw [hb, List.toFinset_cons, List.toFinset_nil, insert_empty_eq, Finset.singleton_inj] at hset
    simp [hb, hset]

theorem soleAction?_eq_none_iff (h : condition.scopeOf = .ok names) :
    soleAction? actions names = none ↔ (condition.actionsIn actions).card ≠ 1 := by
  rw [Option.eq_none_iff_forall_ne_some, ne_eq, Finset.card_eq_one, not_exists]
  simp only [ne_eq, soleAction?_eq_some_iff h]

end Domain

/-! ### What one step does -/

namespace Tables

def place (t : Tables) (condition : Datum) (action? : Option String) : Tables :=
  action?.elim (t.addGlobal condition) (t.addLocal · condition)

end Tables

inductive ActionBound where
  | lower (bound : Datum)
  | upper (bound : Datum)

namespace Tables

def setBound (t : Tables) (name : String) : ActionBound → Tables
  | .lower bound => t.setLower name bound
  | .upper bound => t.setUpper name bound

end Tables

namespace Domain

theorem placePrecondition_eq (actions : Table String PVariable) (condition : Datum) :
    placePrecondition actions condition =
      Build.lift condition.scopeOf >>= fun names =>
        modify fun t => t.place condition (soleAction? actions names) := by
  refine congrArg _ (funext fun names => ?_)
  split
  · next a h => simp [soleAction?, h, Tables.place]
  · next h =>
    have hone : ¬ (names.filter actions.contains).length = 1 := by
      rw [List.length_eq_one_iff]
      rintro ⟨a, ha⟩
      exact h a ha
    simp [soleAction?, hone, Tables.place]

/-- The bound that a condition puts on an action, if any; a lower one is looked for first. -/
def bound? (name : String) (condition : Datum) : Except Fault (Option ActionBound) := do
  (← comparison? condition).elim (.ok none) fun comparison => do
    (← lowerBound? name comparison).elim
      (do .ok ((← upperBound? name comparison).map .upper))
      fun bound => .ok (some (.lower bound))

theorem placeBound_eq (name : String) (condition : Datum) :
    placeBound name condition =
      Build.lift (bound? name condition) >>= fun bound =>
        modify fun t => bound.elim t (t.setBound name) := by
  rw [bound?, lift_bind, bind_assoc]
  refine bind_congr fun comparison? => ?_
  cases comparison? with
  | none => rfl
  | some comparison =>
    simp only [Option.elim_some]
    rw [lift_bind, bind_assoc]
    refine bind_congr fun lower? => ?_
    cases lower? with
    | some bound => rfl
    | none =>
      simp only [Option.elim_none]
      rw [lift_bind, bind_assoc]
      refine bind_congr fun upper? => ?_
      cases upper? <;> rfl

end Domain

/-! ### The invariant of the loop -/

/-- Conditions are divided by the sets of action fluents in them. -/
structure Divides (scope : Datum → Finset String) (conditions : List Datum)
    (locals : Table String (List Datum)) (globals : List Datum) : Prop where
  found : ∀ a, (locals.find? a).getD [] = conditions.filter fun c => scope c = {a}
  keys : ∀ a, a ∈ locals.keys ↔ ∃ c ∈ conditions, scope c = {a}
  ordered : locals.keys.Pairwise fun a b =>
    conditions.findIdx (fun c => scope c = {a}) < conditions.findIdx fun c => scope c = {b}
  others : globals = conditions.filter fun c => (scope c).card ≠ 1
  perm : (locals.values.flatten ++ globals).Perm conditions

namespace Divides

variable {scope : Datum → Finset String} {done : List Datum} {locals : Table String (List Datum)}
  {globals : List Datum}

theorem nil : Divides scope [] .empty [] :=
  ⟨fun _ => rfl, by simp [Table.empty, Table.keys], .nil, rfl, .nil⟩

/-- The first condition about an action stays the first. -/
theorem findIdx_append {a : String} (h : ∃ c ∈ done, scope c = {a}) (cs : List Datum) :
    (done ++ cs).findIdx (fun c => scope c = {a}) = done.findIdx fun c => scope c = {a} := by
  rw [List.findIdx_append, if_pos]
  rw [List.findIdx_lt_length]
  obtain ⟨c, hc, ha⟩ := h
  exact ⟨c, hc, decide_eq_true ha⟩

theorem addGlobal (h : Divides scope done locals globals) {c : Datum} (hc : (scope c).card ≠ 1) :
    Divides scope (done ++ [c]) locals (globals ++ [c]) := by
  have hnone : ∀ a, scope c ≠ {a} := by
    intro a ha
    exact hc (by rw [ha, Finset.card_singleton])
  refine ⟨?_, ?_, ?_, ?_, ?_⟩
  · intro a
    simp [h.found a, hnone a]
  · intro a
    simp [h.keys a, hnone a]
  · refine h.ordered.imp_of_mem fun {a b} ha hb hlt => ?_
    rwa [findIdx_append ((h.keys a).mp ha), findIdx_append ((h.keys b).mp hb)]
  · simp [h.others, hc]
  · rw [← List.append_assoc]
    exact h.perm.append_right [c]

/-- A key that is in the table keeps its place, a new one comes last. -/
theorem ordered_insert (h : Divides scope done locals globals) (c : Datum) (a : String)
    (cs : List Datum) :
    (locals.insert a cs).keys.Pairwise fun a b =>
      (done ++ [c]).findIdx (fun c => scope c = {a}) <
        (done ++ [c]).findIdx fun c => scope c = {b} := by
  have hold : locals.keys.Pairwise fun a b =>
      (done ++ [c]).findIdx (fun c => scope c = {a}) <
        (done ++ [c]).findIdx fun c => scope c = {b} := by
    refine h.ordered.imp_of_mem fun {a b} ha hb hlt => ?_
    rwa [findIdx_append ((h.keys a).mp ha), findIdx_append ((h.keys b).mp hb)]
  by_cases hmem : a ∈ locals.keys
  · have hkeys : (locals.insert a cs).keys = locals.keys := Table.keys_insertEntry_of_mem hmem
    rwa [hkeys]
  · have hkeys : (locals.insert a cs).keys = locals.keys ++ [a] := by
      simp [Table.insert, Table.keys, Table.insertEntry_of_notMem hmem]
    rw [hkeys, List.pairwise_append]
    refine ⟨hold, List.pairwise_singleton _ _, ?_⟩
    intro b hb a' ha'
    rw [List.mem_singleton] at ha'
    -- an old action has a condition among those done, the new one has none
    have hfirst : done.findIdx (fun c => scope c = {b}) < done.length := by
      obtain ⟨c', hc', hb'⟩ := (h.keys b).mp hb
      exact List.findIdx_lt_length.mpr ⟨c', hc', decide_eq_true hb'⟩
    have hlast : done.findIdx (fun c => scope c = {a}) = done.length := by
      rw [List.findIdx_eq_length]
      intro c' hc'
      exact decide_eq_false fun ha => hmem ((h.keys a).mpr ⟨c', hc', ha⟩)
    rw [ha', findIdx_append ((h.keys b).mp hb), List.findIdx_append, hlast, if_neg (lt_irrefl _)]
    omega

theorem addLocal (h : Divides scope done locals globals) {c : Datum} {a : String}
    (hc : scope c = {a}) :
    Divides scope (done ++ [c]) (locals.insert a ((locals.find? a).getD [] ++ [c])) globals := by
  refine ⟨?_, ?_, h.ordered_insert c a _, ?_, ?_⟩
  · -- under each key stand the conditions with that action alone
    intro b
    rw [Table.find?_insert, List.filter_append]
    by_cases hb : a = b
    · simp [← hb, hc, h.found a]
    · simp [hb, hc, h.found b]
  · intro b
    -- a key is added for the action of the condition only
    have hkeys : ∀ cs, b ∈ (locals.insert a cs).keys ↔ b = a ∨ b ∈ locals.keys :=
      fun _ => Table.mem_keys_insertEntry
    rw [hkeys, h.keys]
    simp [hc, eq_comm, or_comm]
  · simp [h.others, hc]
  · -- nothing is lost and nothing is there twice
    calc (locals.insert a _).values.flatten ++ globals
      _ |>.Perm ((locals.values.flatten ++ [c]) ++ globals) :=
          (Table.perm_values_insert locals a c).append_right globals
      _ |>.Perm ((locals.values.flatten ++ globals) ++ [c]) := by
          rw [List.append_assoc, List.append_assoc]
          exact List.perm_append_comm.append_left _
      _ |>.Perm (done ++ [c]) := h.perm.append_right [c]

/-- Keys that come in a strict order do not repeat. -/
theorem nodup_keys (h : Divides scope done locals globals) : locals.keys.Nodup :=
  h.ordered.imp fun hlt heq => (heq ▸ hlt).ne rfl

theorem mem_entries_iff (h : Divides scope done locals globals) {a : String} {cs : List Datum} :
    (a, cs) ∈ locals.entries ↔ cs = done.filter (fun c => scope c = {a}) ∧ cs ≠ [] := by
  rw [Table.mem_entries_iff_find? h.nodup_keys, ← h.found a]
  constructor
  · intro hfind
    refine ⟨by rw [hfind, Option.getD_some], ?_⟩
    have hkey := (h.keys a).mp (Table.mem_keys_of_find? hfind)
    have hcs : cs = done.filter fun c => scope c = {a} := by
      rw [← h.found a, hfind, Option.getD_some]
    rw [hcs, ne_eq, List.filter_eq_nil_iff]
    simpa using hkey
  · rintro ⟨rfl, hne⟩
    cases hfind : locals.find? a with
    | none => simp [hfind] at hne
    | some cs => rfl

/-- What holds of all local conditions holds of those that are about one action. -/
theorem forall_mem_entries_iff (h : Divides scope done locals globals)
    {P : String → Datum → Prop} :
    (∀ entry ∈ locals.entries, ∀ c ∈ entry.2, P entry.1 c) ↔
      ∀ c ∈ done, ∀ a, scope c = {a} → P a c := by
  constructor
  · intro hall c hc a ha
    have hmem : c ∈ done.filter fun c => scope c = {a} := by simp [hc, ha]
    exact hall (a, _) (h.mem_entries_iff.mpr ⟨rfl, List.ne_nil_of_mem hmem⟩) c hmem
  · rintro hall ⟨a, cs⟩ hentry c hc
    rw [(h.mem_entries_iff.mp hentry).1, List.mem_filter, decide_eq_true_eq] at hc
    exact hall c hc.1 a hc.2

end Divides

/-! ### The two loops -/

namespace Tables

/-- Tables with some preconditions of known scope divided. -/
def HasDivided (t : Tables) (actions : Table String PVariable) (done : List Datum) : Prop :=
  (∀ c ∈ done, ∃ names, c.scopeOf = .ok names) ∧
    ∃ locals globals, t.localPreconditions? = some locals ∧ t.globalPreconditions? = some globals ∧
      Divides (Datum.actionsIn actions) done locals globals

end Tables

namespace Domain

theorem placePrecondition_ensures {actions : Table String PVariable} {done : List Datum}
    {condition : Datum} :
    Ensures (fun t => t.HasDivided actions done) (placePrecondition actions condition)
      (fun _ t => t.HasDivided actions (done ++ [condition]))
      (fun t => t.HasDivided actions done) := by
  rw [placePrecondition_eq]
  refine .bind (.lift _ fun _ ht => ht) fun names => .modify ?_
  rintro t ⟨hnames, hscopes, locals, globals, hlocals, hglobals, h⟩
  refine ⟨?_, ?_⟩
  · intro c hc
    rcases List.mem_append.mp hc with hc | hc
    · exact hscopes c hc
    · exact ⟨names, List.mem_singleton.mp hc ▸ hnames⟩
  · cases hsole : soleAction? actions names with
    -- no action or several: the condition becomes a global one
    | none =>
      refine ⟨locals, globals ++ [condition], hlocals, ?_, ?_⟩
      · simp [Tables.place, Tables.addGlobal, hglobals]
      · exact h.addGlobal ((soleAction?_eq_none_iff hnames).mp hsole)
    -- one action: the condition goes behind those that the action has
    | some a =>
      refine ⟨_, globals, ?_, hglobals, h.addLocal ((soleAction?_eq_some_iff hnames).mp hsole)⟩
      simp [Tables.place, Tables.addLocal, hlocals]

theorem buildPreconditions_ensures (d : Domain) :
    Ensures (fun _ => True) d.buildPreconditions
      (fun _ t => ∃ actions conditions, d.fluents .action = .ok actions ∧
        d.preconditions.items = .ok conditions ∧ t.HasDivided actions conditions)
      (fun _ => True) := by
  refine .bind (Q := fun _ t => ∀ actions, t.HasDivided actions []) (.modify ?_) fun _ => ?_
  · intro t _ actions
    exact ⟨by simp, .empty, [], rfl, rfl, .nil⟩
  refine .bind (.lift _ fun _ _ => trivial) fun actions => ?_
  refine .bind (.lift _ fun _ _ => trivial) fun conditions => ?_
  rintro t ⟨hconditions, hactions, ht⟩
  have hloop : Ensures _ (conditions.forM (placePrecondition actions)) _ _ :=
    .forM (J := fun done t => t.HasDivided actions done) fun _ _ => placePrecondition_ensures
  refine hloop.weaken ?_ (fun _ _ => trivial) t (ht actions)
  intro _ u hu
  exact ⟨actions, conditions, hactions, hconditions, hu⟩

theorem buildBounds_keeps (l : Option (Table String (List Datum))) (g : Option (List Datum)) :
    Keeps (fun t => t.localPreconditions? = l ∧ t.globalPreconditions? = g) buildBounds := by
  refine .bind (.modify fun t ht => ht) fun _ => .get_bind fun u => ?_
  refine .bind (.lift _) fun table => .forM fun entry => .forM fun condition => ?_
  rw [placeBound_eq]
  refine .bind (.lift _) fun bound => .modify fun t ht => ?_
  rcases bound with _ | ⟨bound⟩ | ⟨bound⟩ <;> exact ht

theorem build_ensures (d : Domain) :
    Ensures (fun _ => True) d.build
      (fun _ t => ∃ actions conditions, d.fluents .action = .ok actions ∧
        d.preconditions.items = .ok conditions ∧ t.HasDivided actions conditions)
      (fun _ => True) := by
  refine .bind d.buildPreconditions_ensures fun _ t ht => ?_
  refine (buildBounds_keeps t.localPreconditions? t.globalPreconditions?).weaken ?_
    (fun _ _ => trivial) t ⟨rfl, rfl⟩
  rintro _ u ⟨hlocals, hglobals⟩
  simpa only [Tables.HasDivided, hlocals, hglobals] using ht

/-! ### Any order of the names in a scope -/

/-- Place a precondition whose scope is looked through in an order that is chosen anew
    each time. -/
def placeIn (order : Tables → List String → List String) (actions : Table String PVariable)
    (condition : Datum) : Build Unit := do
  let names ← Build.lift condition.scopeOf
  modify fun t => t.place condition (soleAction? actions (order t names))

/-- Build the tables of a domain, with scopes looked through in any order. -/
def buildIn (order : Tables → List String → List String) (d : Domain) : Build Unit := do
  modify fun t =>
    { t with localPreconditions? := some .empty, globalPreconditions? := some [] }
  let actions ← Build.lift (d.fluents .action)
  let conditions ← Build.lift d.preconditions.items
  conditions.forM (placeIn order actions)
  buildBounds

theorem buildIn_eq_build {order : Tables → List String → List String}
    (h : ∀ t names, (order t names).Perm names) (d : Domain) : d.buildIn order = d.build := by
  have hplace : placeIn order = placePrecondition := by
    funext actions condition
    rw [placePrecondition_eq, placeIn]
    simp only [soleAction?_eq_of_perm (h _ _)]
  rw [buildIn, build, buildPreconditions, hplace]
  simp only [bind_assoc]

def actionScope (d : Domain) (condition : Datum) : Finset String :=
  condition.actionsIn ((d.fluents .action).toOption.getD .empty)

/-- **Preconditions are divided: none is lost and none is placed twice.**  Under an action
    stand, in their order, the conditions with no other action fluent in their scope, and all
    others are global; actions come in the order of their first condition.  The order in which
    a scope is looked through does not matter. -/
theorem divided_of_build {d : Domain} {t₀ t : Tables} (h : d.build t₀ = .ok () t) :
    ∃ actions conditions locals globals,
      d.fluents .action = .ok actions ∧ d.preconditions.items = .ok conditions ∧
      (∀ c ∈ conditions, ∃ names, c.scopeOf = .ok names ∧
        d.actionScope c = names.toFinset ∩ actions.keys.toFinset) ∧
      t.localPreconditions? = some locals ∧ t.globalPreconditions? = some globals ∧
      (locals.values.flatten ++ globals).Perm conditions ∧
      (∀ a cs, (a, cs) ∈ locals.entries ↔
        cs = conditions.filter (fun c => d.actionScope c = {a}) ∧ cs ≠ []) ∧
      globals = conditions.filter (fun c => (d.actionScope c).card ≠ 1) ∧
      (locals.keys.Pairwise fun a b =>
        conditions.findIdx (fun c => d.actionScope c = {a}) <
          conditions.findIdx fun c => d.actionScope c = {b}) ∧
      ∀ order : Tables → List String → List String, (∀ t names, (order t names).Perm names) →
        d.buildIn order t₀ = .ok () t := by
  rcases d.build_ensures t₀ trivial with ⟨_, t', hrun, ht⟩ | ⟨cause, t', hrun, -⟩
  · cases h.symm.trans hrun
    obtain ⟨actions, conditions, hactions, hconditions, hscopes, locals, globals, hlocals,
      hglobals, hdivides⟩ := ht
    -- the actions are the same all along, so the scopes can be taken with the known ones
    have hscope : d.actionScope = Datum.actionsIn actions := by
      funext c
      rw [actionScope, hactions]
      rfl
    rw [hscope]
    refine ⟨actions, conditions, locals, globals, hactions, hconditions, ?_, hlocals, hglobals,
      hdivides.perm, fun _ _ => hdivides.mem_entries_iff, hdivides.others, hdivides.ordered, ?_⟩
    · intro c hc
      obtain ⟨names, hnames⟩ := hscopes c hc
      exact ⟨names, hnames, by rw [Datum.actionsIn, hnames]; rfl⟩
    · intro order horder
      rw [buildIn_eq_build horder, h]
  · cases h.symm.trans hrun

def dividedText : String := "domain d \x7b
  pvariables \x7b
    a : \x7b action-fluent, bool, default = false \x7d;
    b : \x7b action-fluent, bool, default = false \x7d;
    x : \x7b state-fluent, bool, default = false \x7d;
  \x7d;
  cpfs \x7b \x7d;
  reward = 1;
  action-preconditions \x7b b; a ^ x; a ^ b; a; x; \x7d;
\x7d
non-fluents n \x7b \x7d
instance i \x7b \x7d"

/-- One condition is about `b`, two are about `a`, and those about both or none are global. -/
theorem divided_of_dividedText :
    ∃ m t locals, (Reading.ofText 1 dividedText).verdict = .model m ∧
      m.domain.build {} = .ok () t ∧ t.localPreconditions? = some locals ∧
      ("a/0", [.binary .and (.occurrence ⟨"a", none⟩) (.occurrence ⟨"x", none⟩),
        .occurrence ⟨"a", none⟩].map Expr.datum) ∈ locals.entries ∧
      ("b/0", [.occurrence ⟨"b", none⟩].map Expr.datum) ∈ locals.entries ∧
      t.globalPreconditions? = some ([.binary .and (.occurrence ⟨"a", none⟩)
        (.occurrence ⟨"b", none⟩), .occurrence ⟨"x", none⟩].map Expr.datum) := by
  have hread : ((Reading.ofText 1 dividedText).verdict.model?.bind fun m =>
      m.domain.preconditions.items.toOption.map fun conditions =>
        ((Build.tables? m.domain.build {}).isSome,
          conditions.filter (fun c => m.domain.actionScope c = {"a/0"}),
          conditions.filter (fun c => m.domain.actionScope c = {"b/0"}),
          conditions.filter fun c => (m.domain.actionScope c).card ≠ 1)) =
      some (true,
        [.binary .and (.occurrence ⟨"a", none⟩) (.occurrence ⟨"x", none⟩),
          .occurrence ⟨"a", none⟩].map Expr.datum,
        [.occurrence ⟨"b", none⟩].map Expr.datum,
        [.binary .and (.occurrence ⟨"a", none⟩) (.occurrence ⟨"b", none⟩),
          .occurrence ⟨"x", none⟩].map Expr.datum) := by
    rw [dividedText, Reading.ofText_eq_ofScan 1 rfl]
    decide +kernel
  obtain ⟨m, hmodel, hview⟩ := Option.bind_eq_some_iff.mp hread
  obtain ⟨conditions, hconditions, hview⟩ := Option.map_eq_some_iff.mp hview
  simp only [Prod.mk.injEq] at hview
  obtain ⟨hbuilds, ha, hb, hglobal⟩ := hview
  obtain ⟨t, ht⟩ := Option.isSome_iff_exists.mp hbuilds
  have hbuild := Build.eq_ok_of_tables? ht
  obtain ⟨actions, conditions', locals, globals, -, hconditions', -, hlocals, hglobals, -, hentries,
    hothers, -, -⟩ := divided_of_build hbuild
  -- the conditions that were divided are those that were read
  cases (toOption_eq_some.mp hconditions).symm.trans hconditions'
  refine ⟨m, t, locals, Verdict.eq_model_of_model? hmodel, hbuild, hlocals, ?_, ?_, ?_⟩
  · exact (hentries _ _).mpr ⟨ha.symm, by simp⟩
  · exact (hentries _ _).mpr ⟨hb.symm, by simp⟩
  · rw [hglobals, hothers, hglobal]

end Domain

end Rddl
