/-
  Rddl/Proofs/Model/Permutation.lean
  ==================================
  **The order of declarations does not matter.**

  The fluents of a kind are sorted by their names and then looked up by them, so that where no
  two variables declare one fluent, the order in which the variables stand is not seen: not in
  the canonical orders, nor in what a model is told by them.  Intermediate fluents are
  an exception, for which the order of declarations decides between fluents of one
  level and functor; but whether they can be sorted at all does not depend on it.  So a
  model builds with its variables in any order if it builds with them in one
  (`Model.orders_of_perm`).
-/
import Rddl.Proofs.Datum.Equality
import Rddl.Proofs.Domain.Levels
import Rddl.Proofs.Model.Grounding

namespace Rddl

/-! ### Orders -/

theorem pairwise_lt_sortNames {names : List String} (h : names.Nodup) :
    (sortNames names).Pairwise (· < ·) := by
  have hnodup : (sortNames names).Pairwise (· ≠ ·) := (perm_sortWith _ names).nodup_iff.mpr h
  exact (pairwise_sortNames names).imp₂ (fun _ _ => lt_of_le_of_ne) hnodup

theorem sortNames_congr {names names' : List String} (h : names.Perm names') :
    sortNames names = sortNames names' :=
  sortNames_eq_of_perm (h.trans (perm_sortWith _ names').symm) (pairwise_sortNames names')

namespace Datum

theorem agrees_comm (a b : Datum) : agrees a b = agrees b a := by
  rw [Bool.eq_iff_iff, agrees_and_agreeAll_iff.1 a b, agrees_and_agreeAll_iff.1 b a]
  exact exists_congr fun _ => and_comm

/-- Data that are neither two texts nor two sequences of one sort have an order if they are
    numbers. -/
theorem isSome_less?_of_ne {a b : Datum} (htext : ∀ s t, a = .text s → b = .text t → False)
    (htuple : ∀ as bs, a = .tuple as → b = .tuple bs → False)
    (hlist : ∀ as bs, a = .list as → b = .list bs → False) :
    (less? a b).isSome = (a.isNumeric && b.isNumeric) := by
  have hless : less? a b =
      if a.isNumeric && b.isNumeric then some (numericOrder .lt a b) else none := by
    rw [less?] <;> assumption
  rw [hless]
  cases a.isNumeric && b.isNumeric <;> rfl

/-- Whether two data have an order does not depend on which comes first. -/
theorem isSome_less?_comm :
    (∀ a b, (less? a b).isSome = (less? b a).isSome) ∧
      ∀ as bs, (lessAll? as bs).isSome = (lessAll? bs as).isSome := by
  have hother : ∀ a b : Datum, (∀ s t, a = .text s → b = .text t → False) →
      (∀ as bs, a = .tuple as → b = .tuple bs → False) →
      (∀ as bs, a = .list as → b = .list bs → False) →
      (less? a b).isSome = (less? b a).isSome := by
    intro a b htext htuple hlist
    rw [isSome_less?_of_ne htext htuple hlist, isSome_less?_of_ne
      (fun s t hb ha => htext t s ha hb) (fun as bs hb ha => htuple bs as ha hb)
      (fun as bs hb ha => hlist bs as ha hb), Bool.and_comm]
  -- one case for each branch of the two comparisons
  apply less?.mutual_induct
  case case1 =>
    intro a b
    simp [less?]
  case case2 =>
    intro as bs ih
    simpa [less?] using ih
  case case3 =>
    intro as bs ih
    simpa [less?] using ih
  case case4 => exact fun a b htext htuple hlist _ => hother a b htext htuple hlist
  case case5 => exact fun a b htext htuple hlist _ => hother a b htext htuple hlist
  case case6 => rfl
  case case7 => simp [lessAll?]
  case case8 => simp [lessAll?]
  case case9 =>
    intro a as b bs hagrees ih
    simpa [lessAll?, hagrees, agrees_comm b a] using ih
  case case10 =>
    intro a as b bs hagrees ih
    simpa [lessAll?, hagrees, agrees_comm b a] using ih

theorem haveOrder_perm {keys keys' : List (List Datum)} (h : keys.Perm keys') :
    haveOrder keys = haveOrder keys' := by
  rw [Bool.eq_iff_iff, haveOrder_iff, haveOrder_iff]
  apply h.pairwise_iff
  intro k l hkl
  rwa [isSome_less?_comm.2]

end Datum

/-! ### Variables in another order -/

def Domain.withVariables (d : Domain) (pvariables : Datum) : Domain := { d with pvariables }

def Model.withVariables (m : Model) (pvariables : Datum) : Model :=
  { m with domain := m.domain.withVariables pvariables }

namespace Domain.HasVariables

variable {d d' : Domain} {vars vars' : List (Fluent × PVariable)} {kind : FluentKind}

theorem ordering_eq (h : d.HasVariables vars) (hdistinct : (vars.map Prod.fst).Nodup)
    (hkind : kind ≠ .intermediate) :
    d.ordering kind =
      .ok (sortNames ((vars.filter fun v => v.2.isOf kind).map fun v => v.1.name)) := by
  obtain ⟨table, htable, hentries, -⟩ := h.exists_fluents hdistinct kind
  have hkeys : table.keys = (vars.filter fun v => v.2.isOf kind).map fun v => v.1.name := by
    rw [Table.keys, hentries, List.map_map]
    rfl
  rw [ordering_of_fluents htable hkind, hkeys]

theorem of_perm (h : d.HasVariables vars) {pvariables : Datum}
    (hitems : pvariables.items = .ok (vars'.map fun v => v.2.datum)) (hperm : vars'.Perm vars) :
    (d.withVariables pvariables).HasVariables vars' :=
  ⟨hitems, fun v hv => h.fluentName v (hperm.mem_iff.mp hv)⟩

/-- The same is found under every name. -/
theorem exists_fluents_of_perm (h : d.HasVariables vars) (h' : d'.HasVariables vars')
    (hdistinct : (vars.map Prod.fst).Nodup) (hperm : vars'.Perm vars) (kind : FluentKind) :
    ∃ table table', d.fluents kind = .ok table ∧ d'.fluents kind = .ok table' ∧
      ∀ name, table'.find? name = table.find? name := by
  have hdistinct' : (vars'.map Prod.fst).Nodup := (hperm.map _).nodup_iff.mpr hdistinct
  obtain ⟨table, htable, -, hfind⟩ := h.exists_fluents hdistinct kind
  obtain ⟨table', htable', -, hfind'⟩ := h'.exists_fluents hdistinct' kind
  refine ⟨table, table', htable, htable', fun name => Option.ext fun p => ?_⟩
  rw [hfind, hfind']
  simp only [(hperm.filter _).mem_iff]

end Domain.HasVariables

open Build

/-! ### Preconditions -/

namespace Domain

variable {d : Domain} {vars vars' : List (Fluent × PVariable)} {pvariables : Datum}

theorem placePrecondition_congr {actions actions' : Table String PVariable}
    (h : ∀ name, actions'.find? name = actions.find? name) :
    placePrecondition actions' = placePrecondition actions := by
  have hcontains : actions'.contains = actions.contains := by
    funext name
    rw [Table.contains, Table.contains, h name]
  funext condition
  rw [placePrecondition, placePrecondition, hcontains]

theorem build_withVariables (h : d.HasVariables vars) (hdistinct : (vars.map Prod.fst).Nodup)
    (hitems : pvariables.items = .ok (vars'.map fun v => v.2.datum)) (hperm : vars'.Perm vars) :
    (d.withVariables pvariables).build = d.build := by
  obtain ⟨actions, actions', hactions, hactions', hfind⟩ :=
    h.exists_fluents_of_perm (h.of_perm hitems hperm) hdistinct hperm .action
  have hpreconditions : (d.withVariables pvariables).buildPreconditions = d.buildPreconditions := by
    rw [buildPreconditions, buildPreconditions, hactions, hactions']
    simp only [lift_ok_bind, placePrecondition_congr hfind]
    rfl
  rw [build, build, hpreconditions]

end Domain

namespace Model

variable {m : Model} {vars vars' : List (Fluent × PVariable)} {pvariables : Datum}

/-! ### Intermediate fluents -/

/-- What intermediate fluents are sorted by. -/
def levelKeys (vars : List (Fluent × PVariable)) : List (List Datum) :=
  (intermediates vars).map fun v => [v.2.level, v.2.name]

theorem haveOrder_of_orderedFluents (h : m.domain.HasVariables vars)
    (hdistinct : (vars.map Prod.fst).Nodup) {fluents : List (String × PVariable)}
    (hfluents : m.orderedFluents .intermediate = .ok fluents) :
    Datum.haveOrder (levelKeys vars) = true := by
  obtain ⟨table, htable, hentries, -⟩ := h.exists_fluents hdistinct .intermediate
  obtain ⟨_, -, hfluents⟩ := except_bind_eq_ok.mp hfluents
  obtain ⟨ordering, hordering, -⟩ := except_bind_eq_ok.mp hfluents
  obtain ⟨table', htable', hordering⟩ := except_bind_eq_ok.mp hordering
  cases htable.symm.trans htable'
  obtain ⟨sorted, hsorted, -⟩ := except_bind_eq_ok.mp hordering
  have horder := Datum.isSome_sortOn.mp ⟨sorted, hsorted⟩
  rwa [Table.values, hentries, List.map_map, List.map_map] at horder

theorem exists_orderedFluents_of_haveOrder (h : m.domain.HasVariables vars)
    (hdistinct : (vars.map Prod.fst).Nodup) (horder : Datum.haveOrder (levelKeys vars) = true) :
    ∃ ordered : List (Fluent × PVariable), ordered.Perm (intermediates vars) ∧
      m.orderedFluents .intermediate = .ok (ordered.map fun v => (v.1.name, v.2)) := by
  obtain ⟨table, htable, hentries, hfind⟩ := h.exists_fluents hdistinct .intermediate
  have hvalues : table.values = (intermediates vars).map Prod.snd := by
    rw [Table.values, hentries, List.map_map]
    rfl
  -- the fluents are sorted along with their variables
  obtain ⟨ordered, hperm, hsorted⟩ : ∃ ordered : List (Fluent × PVariable),
      ordered.Perm (intermediates vars) ∧
        Datum.sortOn (fun p : PVariable => [p.level, p.name]) table.values =
          .ok (ordered.map Prod.snd) := by
    refine ⟨_, perm_sortWith (fun v w => Datum.lessAll? [w.2.level, w.2.name]
      [v.2.level, v.2.name] != some true) (intermediates vars), ?_⟩
    rw [hvalues, Datum.sortOn, List.map_map]
    refine (if_pos horder).trans ?_
    exact congrArg Except.ok (Eq.symm (map_sortWith Prod.snd fun _ _ _ _ => rfl))
  have hvars : ∀ v ∈ ordered, v ∈ intermediates vars := fun v hv => hperm.mem_iff.mp hv
  refine ⟨ordered, hperm, except_bind_eq_ok.mpr ⟨table, htable,
    except_bind_eq_ok.mpr ⟨ordered.map fun v => v.1.name, ?_, ?_⟩⟩⟩
  · -- the names in that order
    refine except_bind_eq_ok.mpr ⟨table, htable, except_bind_eq_ok.mpr ⟨_, hsorted, ?_⟩⟩
    apply mapM_map_eq_ok
    intro v hv
    exact h.fluentName v (List.mem_of_mem_filter (hvars v hv))
  · -- each name is found in the table again
    apply mapM_map_eq_ok
    intro v hv
    rw [(hfind v.1.name v.2).mpr ⟨v, hvars v hv, rfl, rfl⟩]

/-- The shapes of intermediate fluents are known exactly if the fluents can be sorted and
    each of them has a shape. -/
theorem exists_sizes_intermediate_iff (h : m.domain.HasVariables vars)
    (hdistinct : (vars.map Prod.fst).Nodup) {t : Tables} :
    (∃ shapes, m.sizes t .intermediate = .ok shapes) ↔
      Datum.haveOrder (levelKeys vars) = true ∧
        ∀ v ∈ intermediates vars, ∃ s, shape t v.2 = .ok s := by
  constructor
  · rintro ⟨shapes, hshapes⟩
    obtain ⟨fluents, hfluents, hshapes⟩ := except_bind_eq_ok.mp hshapes
    -- the fluents were sorted, so their levels can be compared
    have horder := haveOrder_of_orderedFluents h hdistinct hfluents
    obtain ⟨ordered, hperm, hordered⟩ := exists_orderedFluents_of_haveOrder h hdistinct horder
    cases hfluents.symm.trans hordered
    refine ⟨horder, fun v hv => ?_⟩
    have hmem := List.mem_map_of_mem (f := fun v : Fluent × PVariable => (v.1.name, v.2))
      (hperm.mem_iff.mpr hv)
    obtain ⟨s, -, hs⟩ := exists_ok_of_mapM hshapes hmem
    exact ⟨s, hs⟩
  · rintro ⟨horder, hall⟩
    obtain ⟨ordered, hperm, hordered⟩ := exists_orderedFluents_of_haveOrder h hdistinct horder
    have hshapes : ∀ fluent ∈ ordered.map fun v => (v.1.name, v.2),
        ∃ s, shape t fluent.2 = .ok s := by
      intro fluent hfluent
      obtain ⟨v, hv, rfl⟩ := List.mem_map.mp hfluent
      exact hall v (hperm.mem_iff.mp hv)
    obtain ⟨shapes, hshapes⟩ := exists_mapM_eq_ok hshapes
    exact ⟨shapes, except_bind_eq_ok.mpr ⟨_, hordered, hshapes⟩⟩

/-! ### The fluent table -/

theorem placeFluents_of_sizes {t : Tables} {kind : FluentKind} {shapes : List (List Nat)}
    (h : m.sizes t kind = .ok shapes) :
    ∃ table, m.placeFluents kind t = .ok () { t with fluents? := some table } := by
  obtain ⟨fluents, hfluents, -⟩ := except_bind_eq_ok.mp h
  have hfirst : Build.lift (m.orderedFluents kind) t = .ok fluents t := by rw [hfluents]; rfl
  have hsecond : Build.lift (m.sizes t kind) t = .ok shapes t := by rw [h]; rfl
  exact ⟨(fluents.zip shapes).foldl (fun table e => table.insert e.1.1 ⟨e.1.2, e.2⟩)
    (t.fluents?.getD .empty), bind_eq_ok.mpr ⟨fluents, t, hfirst, bind_eq_ok.mpr ⟨t, t, rfl,
      bind_eq_ok.mpr ⟨shapes, t, hsecond, rfl⟩⟩⟩⟩

/-- Where all shapes are known, the fluent table is built, and nothing else. -/
theorem exists_buildFluents {t : Tables}
    (h : ∀ kind ∈ groupKinds, ∃ shapes, m.sizes t kind = .ok shapes) :
    ∃ table, m.buildFluents t = .ok () { t with fluents? := some table } := by
  have hloop : ∀ kinds : List FluentKind, (∀ kind ∈ kinds, ∃ shapes, m.sizes t kind = .ok shapes) →
      ∀ table, ∃ table', kinds.forM m.placeFluents { t with fluents? := some table } =
        .ok () { t with fluents? := some table' } := by
    intro kinds
    induction kinds with
    | nil => exact fun _ table => ⟨table, rfl⟩
    | cons kind kinds ih =>
      intro hkinds table
      obtain ⟨shapes, hshapes⟩ := hkinds kind List.mem_cons_self
      obtain ⟨table₁, hfirst⟩ := placeFluents_of_sizes
        ((sizes_congr (u := { t with fluents? := some table }) rfl kind).trans hshapes)
      obtain ⟨table', hrest⟩ := ih (fun k hk => hkinds k (List.mem_cons_of_mem kind hk)) table₁
      exact ⟨table', bind_eq_ok.mpr ⟨(), _, hfirst, hrest⟩⟩
  rw [buildFluents_eq]
  obtain ⟨table, htable⟩ := hloop groupKinds h .empty
  exact ⟨table, bind_eq_ok.mpr ⟨(), _, rfl, htable⟩⟩

theorem groundedFluents_congr {t u : Tables} (h : u.objects? = t.objects?) (kind : FluentKind) :
    m.groundedFluents u kind = m.groundedFluents t kind := by
  have hobjects : ∀ type, u.objectsOf type = t.objectsOf type := by
    intro type
    simp only [Tables.objectsOf, Tables.objects, h]
  simp only [groundedFluents, groundings, hobjects]

/-! ### Building with the variables in another order -/

section Perm

variable (h : m.domain.HasVariables vars) (hdistinct : (vars.map Prod.fst).Nodup)
  (hitems : pvariables.items = .ok (vars'.map fun v => v.2.datum)) (hperm : vars'.Perm vars)
include h hdistinct hitems hperm

theorem ordering_withVariables {kind : FluentKind} (hkind : kind ≠ .intermediate) :
    (m.withVariables pvariables).domain.ordering kind = m.domain.ordering kind := by
  have hdistinct' : (vars'.map Prod.fst).Nodup := (hperm.map _).nodup_iff.mpr hdistinct
  have hnames := (hperm.filter fun v => v.2.isOf kind).map fun v => v.1.name
  have h' : (m.withVariables pvariables).domain.HasVariables vars' := h.of_perm hitems hperm
  rw [h.ordering_eq hdistinct hkind, h'.ordering_eq hdistinct' hkind, sortNames_congr hnames]

theorem orderedFluents_withVariables {kind : FluentKind} (hkind : kind ≠ .intermediate) :
    (m.withVariables pvariables).orderedFluents kind = m.orderedFluents kind := by
  have h' : (m.withVariables pvariables).domain.HasVariables vars' := h.of_perm hitems hperm
  obtain ⟨table, table', htable, htable', hfind⟩ :=
    h.exists_fluents_of_perm h' hdistinct hperm kind
  rw [orderedFluents, orderedFluents, htable, htable',
    ordering_withVariables h hdistinct hitems hperm hkind]
  simp only [bind, Except.bind, hfind]

theorem exists_sizes_withVariables {t : Tables} {kind : FluentKind}
    (hsizes : ∃ shapes, m.sizes t kind = .ok shapes) :
    ∃ shapes, (m.withVariables pvariables).sizes t kind = .ok shapes := by
  by_cases hkind : kind = .intermediate
  · subst hkind
    have hdistinct' : (vars'.map Prod.fst).Nodup := (hperm.map _).nodup_iff.mpr hdistinct
    have h' : (m.withVariables pvariables).domain.HasVariables vars' := h.of_perm hitems hperm
    have hmid : (intermediates vars').Perm (intermediates vars) := hperm.filter _
    obtain ⟨horder, hshapes⟩ := (exists_sizes_intermediate_iff h hdistinct).mp hsizes
    refine (exists_sizes_intermediate_iff h' hdistinct').mpr ⟨?_, ?_⟩
    · rwa [levelKeys, Datum.haveOrder_perm (hmid.map _)]
    · exact fun v hv => hshapes v (hmid.mem_iff.mp hv)
  · rwa [sizes, orderedFluents_withVariables h hdistinct hitems hperm hkind]

/-- A model that builds with its variables in one order builds with them in another, and the
    tables differ in the fluent table at most. -/
theorem exists_build_withVariables {t₀ t : Tables} (hbuild : m.build t₀ = .ok () t) :
    ∃ table, (m.withVariables pvariables).build t₀ =
      .ok () { t with fluents? := some table } := by
  obtain ⟨_, t₁, hdomain, hrest⟩ := bind_eq_ok.mp hbuild
  obtain ⟨_, t₂, hobjects, hfluents⟩ := bind_eq_ok.mp hrest
  -- the last step sets the fluents and leaves all other tables alone
  have hothers : t = { t₂ with fluents? := t.fluents? } := by
    have hkept : Keeps (fun u => u = { t₂ with fluents? := u.fluents? }) m.buildFluents :=
      buildFluents_keeps_others (fun u _ hu => by rw [hu]) m
    exact hkept.of_ok rfl hfluents
  -- what has a shape in one order of the variables has it in the other
  have hsizes : ∀ kind ∈ groupKinds,
      ∃ shapes, (m.withVariables pvariables).sizes t₂ kind = .ok shapes := by
    intro kind hkind
    apply exists_sizes_withVariables h hdistinct hitems hperm
    have hsame : t₂.objects? = t.objects? := by rw [hothers]
    rw [sizes_congr hsame kind]
    exact (shaped_of_build hbuild).2 kind hkind
  obtain ⟨table, htable⟩ := exists_buildFluents hsizes
  refine ⟨table, ?_⟩
  rw [hothers]
  refine bind_eq_ok.mpr ⟨(), t₁, ?_, bind_eq_ok.mpr ⟨(), t₂, hobjects, htable⟩⟩
  exact (congrFun (Domain.build_withVariables h hdistinct hitems hperm) t₀).trans hdomain

end Perm

/-- **Canonical orders do not depend on the order of declarations.**  Take a domain in which no
    two variables declare one fluent.  Except for intermediate fluents, the order of a kind is
    strictly increasing and has exactly the names of the variables of the kind, and with
    the variables in another order it is the same.  A model that builds with the variables in
    one order builds with them in the other, from the same tables to the same tables but for
    the fluent table, and the shapes, ranges and groundings of non-fluents, state and
    action fluents are the same. -/
theorem orders_of_perm (h : m.domain.HasVariables vars) (hdistinct : (vars.map Prod.fst).Nodup)
    (hitems : pvariables.items = .ok (vars'.map fun v => v.2.datum)) (hperm : vars'.Perm vars) :
    (∀ kind ≠ FluentKind.intermediate, ∃ names, m.domain.ordering kind = .ok names ∧
      names.Pairwise (· < ·) ∧
      (∀ name, name ∈ names ↔ ∃ v ∈ vars, v.2.isOf kind = true ∧ v.1.name = name) ∧
      (m.withVariables pvariables).domain.ordering kind = .ok names) ∧
    ∀ t₀ t, m.build t₀ = .ok () t →
      ∃ t', (m.withVariables pvariables).build t₀ = .ok () t' ∧
        t' = { t with fluents? := t'.fluents? } ∧
        ∀ kind ∈ [FluentKind.nonFluent, .state, .action],
          (m.withVariables pvariables).sizes t' kind = m.sizes t kind ∧
          (m.withVariables pvariables).ranges kind = m.ranges kind ∧
          (m.withVariables pvariables).groundedFluents t' kind = m.groundedFluents t kind := by
  constructor
  · intro kind hkind
    refine ⟨_, h.ordering_eq hdistinct hkind, pairwise_lt_sortNames (nodup_names hdistinct kind),
      fun name => ?_, ?_⟩
    · rw [sortNames, (perm_sortWith _ _).mem_iff, List.mem_map]
      simp only [List.mem_filter, and_assoc]
    · rw [ordering_withVariables h hdistinct hitems hperm hkind, h.ordering_eq hdistinct hkind]
  · intro t₀ t hbuild
    obtain ⟨table, htable⟩ := exists_build_withVariables h hdistinct hitems hperm hbuild
    refine ⟨_, htable, rfl, fun kind hkind => ?_⟩
    have hne : kind ≠ .intermediate := by
      rintro rfl
      exact absurd hkind (by decide)
    have hordered := orderedFluents_withVariables h hdistinct hitems hperm hne
    refine ⟨?_, ?_, ?_⟩
    · -- of the tables only the objects are read, and they are the same
      refine (sizes_congr (t := t) rfl kind).trans ?_
      rw [sizes, sizes, hordered]
    · rw [ranges, ranges, hordered]
    · refine (groundedFluents_congr (t := t) rfl kind).trans ?_
      rw [groundedFluents, groundedFluents, hordered]

end Model

/-- Variables of three kinds, not in the order of their names. -/
def mixedVariables : List PVarDecl :=
  [⟨"q", none, "bool", .state (.truth false)⟩, ⟨"p", some ["o"], "bool", .state (.truth false)⟩,
    ⟨"r", none, "bool", .intermediate (.integer 1)⟩, ⟨"s", none, "bool", .action (.truth false)⟩]

def mixedText : String := "domain d \x7b
  types \x7b o : object; \x7d;
  pvariables \x7b
    q : \x7b state-fluent, bool, default = false \x7d;
    p(o) : \x7b state-fluent, bool, default = false \x7d;
    r : \x7b interm-fluent, bool, level = 1 \x7d;
    s : \x7b action-fluent, bool, default = false \x7d;
  \x7d;
  cpfs \x7b \x7d;
  reward = 1;
\x7d
non-fluents n \x7b objects \x7b o : \x7ba, b\x7d; \x7d; \x7d
instance i \x7b \x7d"

/-- With the variables turned around the model builds, and the state fluents stay in order. -/
theorem Model.orders_of_mixedText :
    ∃ m t t' pvariables, (Reading.ofText 1 mixedText).verdict = .model m ∧
      m.build {} = .ok () t ∧ (m.withVariables pvariables).build {} = .ok () t' ∧
      pvariables = .list (mixedVariables.reverse.map fun v => v.pvariable.datum) ∧
      (m.withVariables pvariables).domain.ordering .state = .ok ["p/1", "q/0"] ∧
      (m.withVariables pvariables).sizes t' .state = .ok [[2], []] := by
  have hread : ((Reading.ofText 1 mixedText).verdict.model?.bind fun m =>
      (Build.tables? m.build {}).map fun t => (m.domain.pvariables,
        (m.domain.ordering .state).toOption, (m.sizes t .state).toOption)) =
      some (.list (mixedVariables.map fun v => v.pvariable.datum), some ["p/1", "q/0"],
        some [[2], []]) := by
    rw [mixedText, Reading.ofText_eq_ofScan 1 rfl]
    decide +kernel
  obtain ⟨m, hmodel, hview⟩ := Option.bind_eq_some_iff.mp hread
  obtain ⟨t, ht, hview⟩ := Option.map_eq_some_iff.mp hview
  simp only [Prod.mk.injEq, toOption_eq_some] at hview
  obtain ⟨hvars, hordering, hsizes⟩ := hview
  have hverdict := Verdict.eq_model_of_model? hmodel
  have hbuild := Build.eq_ok_of_tables? ht
  have hhas : m.domain.HasVariables (mixedVariables.map fun v => (v.fluent, v.pvariable)) := by
    constructor
    · rw [hvars, List.map_map]
      rfl
    · simp [PVarDecl.fluentName_pvariable]
  -- the same variables from the last to the first
  have hitems : (Datum.list (mixedVariables.reverse.map fun v => v.pvariable.datum)).items =
      .ok ((mixedVariables.reverse.map fun v => (v.fluent, v.pvariable)).map
        fun v => v.2.datum) := by
    rw [List.map_map]
    rfl
  have hperm : (mixedVariables.reverse.map fun v => (v.fluent, v.pvariable)).Perm
      (mixedVariables.map fun v => (v.fluent, v.pvariable)) :=
    (List.reverse_perm _).map _
  have hdistinct : ((mixedVariables.map fun v => (v.fluent, v.pvariable)).map Prod.fst).Nodup := by
    decide
  obtain ⟨horders, hbuilds⟩ := orders_of_perm hhas hdistinct hitems hperm
  obtain ⟨names, hnames, -, -, hnames'⟩ := horders .state (by decide)
  obtain ⟨t', ht', -, hsame⟩ := hbuilds {} t hbuild
  obtain ⟨hsizes', -, -⟩ := hsame .state (by decide)
  exact ⟨m, t, t', _, hverdict, hbuild, ht', rfl, hnames'.trans (hnames.symm.trans hordering),
    hsizes'.trans hsizes⟩

end Rddl
