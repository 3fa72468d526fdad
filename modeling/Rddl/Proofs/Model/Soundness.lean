/-
  Rddl/Proofs/Model/Soundness.lean
  ================================
  **Dependencies in sound models.**

  In a sound model every fluent that occurs is declared, every intermediate one has a
  function, and none depends on itself.  A search for dependencies then never runs on, but it
  does not always find its way: observation fluents and the primed fluents of the next state
  have no place in the fluent table.  A search finds what an expression depends on exactly if
  it meets none of these, and otherwise fails for one of them
  (`Model.dependencies_of_sound`).
-/
import Rddl.Proofs.Blocks
import Rddl.Proofs.Datum.Equality
import Rddl.Proofs.Model.FluentTable
import Rddl.Proofs.Model.Searches
import Rddl.Proofs.Syntax.Scope

namespace Rddl

/-! ### Outlines of domains -/

structure Outline where
  vars : List PVarDecl
  functions : List CpfDecl
  reward : Expr
  conditions : List Expr

namespace Outline

variable (o : Outline)

def declared (kind : FluentKind) : List Fluent :=
  (o.vars.filter fun v => v.role.kind = kind).map PVarDecl.fluent

def expressions : List Expr := o.functions.map CpfDecl.body ++ o.reward :: o.conditions

/-- An intermediate fluent stands in the function of another. -/
def Uses (f g : Fluent) : Prop :=
  f ∈ o.declared .intermediate ∧ g ∈ o.declared .intermediate ∧
    ∃ c ∈ o.functions, c.fluent = f ∧ g ∈ c.body.scope

/-- Every fluent that occurs is declared, or is the primed one of a state fluent; intermediate
    fluents have one function each, and do not depend on themselves.  Only fluents are named as
    the mark of fluents. -/
structure IsSound : Prop where
  unmarked : ∀ e ∈ o.expressions, e.isUnmarked = true
  declared : ∀ e ∈ o.expressions, ∀ f ∈ e.scope,
    (∃ kind, f ∈ o.declared kind) ∨ ∃ g ∈ o.declared .state, f = g.next
  defined : ∀ f ∈ o.declared .intermediate, (o.functions.map CpfDecl.fluent).count f = 1
  acyclic : ∀ f, ¬Relation.TransGen o.Uses f f

/-- A fluent that an expression depends on, through intermediate ones. -/
inductive Reaches : Expr → Fluent → Prop
  | inScope {e f} : f ∈ e.scope → Reaches e f
  | through {e c f} : c.fluent ∈ e.scope → c.fluent ∈ o.declared .intermediate →
      c ∈ o.functions → Reaches c.body f → Reaches e f

def HasPlace (f : Fluent) : Prop := ∃ kind, kind ≠ .observation ∧ f ∈ o.declared kind

variable {o}

theorem body_mem_expressions {c : CpfDecl} (h : c ∈ o.functions) : c.body ∈ o.expressions :=
  List.mem_append_left _ (List.mem_map_of_mem h)

/-- In a sound outline only observations and primed fluents have no place. -/
theorem IsSound.of_not_hasPlace (hsound : o.IsSound) {e : Expr} (he : e ∈ o.expressions)
    {f : Fluent} (h : o.Reaches e f) (hplace : ¬o.HasPlace f) :
    f ∈ o.declared .observation ∨ ∃ g ∈ o.declared .state, f = g.next := by
  induction h with
  | inScope hf =>
    rcases hsound.declared _ he _ hf with ⟨kind, hkind⟩ | hnext
    · by_cases hobserved : kind = .observation
      · exact .inl (hobserved ▸ hkind)
      · exact absurd ⟨kind, hobserved, hkind⟩ hplace
    · exact .inr hnext
  | through _ _ hc _ ih => exact ih (body_mem_expressions hc) hplace

end Outline

structure Domain.IsFrom (d : Domain) (o : Outline) : Prop
    extends d.Declares o.vars o.functions where
  reward : d.reward = o.reward.datum
  preconditions : d.preconditions = .list (o.conditions.map Expr.datum)

theorem Domain.IsFrom.declared_eq {d : Domain} {o : Outline} (h : d.IsFrom o)
    (kind : FluentKind) : d.declared kind = o.declared kind :=
  h.toDeclares.declared_eq kind

/-- A domain that was read from a text has an outline. -/
theorem Domain.exists_isFrom {line : Nat} {text : String} {m : Model}
    (h : (Reading.ofText line text).verdict = .model m) : ∃ o, m.domain.IsFrom o := by
  obtain ⟨-, -, b, -, -, -, -, -, -, -, -, hgives⟩ := Model.exists_blocks_of_verdict h
  obtain ⟨reward, -, hreward⟩ := hgives.reward
  exact ⟨⟨b.vars, b.functions, reward, b.expressions "preconds"⟩, hgives.declares, hreward,
    hgives.preconditions⟩

/-! ### Functions of intermediate fluents -/

theorem eq_of_count_map_eq_one {α β : Type} [BEq β] [LawfulBEq β] {f : α → β} {xs : List α} {b : β}
    (h : (xs.map f).count b = 1) {x y : α} (hx : x ∈ xs) (hy : y ∈ xs) (hfx : f x = b)
    (hfy : f y = b) : x = y := by
  rw [List.count, List.countP_map, List.countP_eq_length_filter, List.length_eq_one_iff] at h
  obtain ⟨z, hz⟩ := h
  have hsame : ∀ w ∈ xs, f w = b → w = z := by
    intro w hw hfw
    have hmem : w ∈ xs.filter ((· == b) ∘ f) := List.mem_filter.mpr ⟨hw, by simp [hfw]⟩
    rw [hz] at hmem
    exact List.mem_singleton.mp hmem
  rw [hsame x hx hfx, hsame y hy hfy]

namespace Domain.Declares

variable {d : Domain} {vars : List PVarDecl} {functions : List CpfDecl}

/-- Where intermediate fluents can be put in order, so can their functions. -/
theorem exists_intermediateCpfs_of_ordering (h : d.Declares vars functions) {names : List String}
    (hnames : d.ordering .intermediate = .ok names) : ∃ mids, d.intermediateCpfs = .ok mids := by
  obtain ⟨table, htable, hnames⟩ := except_bind_eq_ok.mp hnames
  obtain ⟨sorted, hsorted, -⟩ := except_bind_eq_ok.mp hnames
  obtain ⟨cpfs, hcpfs⟩ : ∃ cpfs, d.cpfsOf .intermediate .ok = .ok cpfs :=
    ⟨_, h.cpfsOf_eq .intermediate (fun _ _ => rfl) htable⟩
  -- the fluents of the table, by their declarations
  obtain ⟨vs, hvs⟩ : table.values ∈ Set.range (List.map
      fun v : {v : PVarDecl // v.role.kind = .intermediate} => v.1.pvariable) := by
    rw [Set.range_list_map]
    intro p hp
    obtain ⟨⟨name, p⟩, hentry, rfl⟩ := List.mem_map.mp hp
    obtain ⟨v, -, hkind, -, rfl⟩ := h.exists_of_mem_entries htable hentry
    exact ⟨⟨v, hkind⟩, rfl⟩
  have hlevel : ∀ v : {v : PVarDecl // v.role.kind = .intermediate},
      ∃ k : Constant, v.1.pvariable.level = k.datum := by
    intro v
    obtain ⟨k, hk⟩ := Role.exists_of_kind_intermediate v.2
    exact ⟨k, by simp [PVarDecl.pvariable, hk, Role.level]⟩
  -- the fluents have been sorted, so all their levels are numbers or none is
  have hsame : ∀ v ∈ vs, ∀ w ∈ vs,
      v.1.pvariable.level.isNumeric = w.1.pvariable.level.isNumeric := by
    have horder := Datum.isSome_sortOn.mp ⟨sorted, hsorted⟩
    rw [← hvs, List.map_map] at horder
    exact (Datum.haveOrder_iff_isNumeric fun v _ => hlevel v).mp horder
  -- every function to be sorted has one of these fluents
  have hfluent : ∀ c ∈ cpfs, ∃ v ∈ vs, v.1.pvariable = c.fluent := by
    intro c hc
    obtain ⟨table', htable', hfind⟩ := find?_of_mem_cpfsOf hcpfs hc
    cases htable.symm.trans htable'
    have hvalue : c.fluent ∈ table.values :=
      List.mem_map_of_mem (f := Prod.snd) (Table.mem_entries_of_find? hfind)
    rw [← hvs] at hvalue
    exact List.mem_map.mp hvalue
  refine (exists_intermediateCpfs_iff_isNumeric hcpfs ?_).mpr ?_
  · intro c hc
    obtain ⟨v, -, hv⟩ := hfluent c hc
    exact hv ▸ hlevel v
  · intro a ha b hb
    obtain ⟨v, hv, hva⟩ := hfluent a ha
    obtain ⟨w, hw, hwb⟩ := hfluent b hb
    rw [← hva, ← hwb]
    exact hsame v hv w hw

end Domain.Declares

namespace Model

variable {m : Model} {t : Tables} {o : Outline}

/-- Intermediate fluents of a full fluent table can be put in order. -/
theorem exists_ordering_intermediate (ht : t.HasFluents m groupKinds) :
    ∃ names, m.domain.ordering .intermediate = .ok names := by
  obtain ⟨table, hover, -⟩ := ht
  obtain ⟨groups, hgroups, -⟩ := except_bind_eq_ok.mp hover
  obtain ⟨entries, -, hgroup⟩ := exists_ok_of_mapM hgroups (x := .intermediate) (by decide)
  obtain ⟨fluents, hfluents, -⟩ := except_bind_eq_ok.mp hgroup
  obtain ⟨fluents', -, hordered⟩ := except_bind_eq_ok.mp hfluents
  obtain ⟨names, hnames, -⟩ := except_bind_eq_ok.mp hordered
  exact ⟨names, hnames⟩

section Sound

variable (hfrom : m.domain.IsFrom o) (ht : t.HasFluents m groupKinds) (hsound : o.IsSound)
include hfrom ht hsound

/-- The body that is followed is that of the only function of the fluent. -/
theorem intermediateBody_eq {c : CpfDecl} (hc : c ∈ o.functions)
    (hdeclared : c.fluent ∈ o.declared .intermediate) :
    m.intermediateBody c.fluent.name = .ok c.body.datum := by
  have hdecl := hfrom.toDeclares
  obtain ⟨names, hnames⟩ := exists_ordering_intermediate ht
  obtain ⟨mids, hmids⟩ := hdecl.exists_intermediateCpfs_of_ordering hnames
  obtain ⟨cpfs, hcpfs, hsort⟩ := except_bind_eq_ok.mp hmids
  obtain ⟨table, htable⟩ : ∃ table, m.domain.fluents .intermediate = .ok table :=
    ⟨_, hdecl.fluents_eq .intermediate⟩
  have hlist : m.domain.cpfsOf .intermediate .ok = .ok (o.functions.filterMap fun c =>
      (table.find? c.fluent.name).map fun p => ⟨c.fluent.name, c.datum, p⟩) :=
    hdecl.cpfsOf_eq .intermediate (fun _ _ => rfl) htable
  cases hlist.symm.trans hcpfs
  have hmem : ∀ {n}, n ∈ mids ↔ ∃ c' ∈ o.functions, ∃ p,
      table.find? c'.fluent.name = some p ∧ ⟨c'.fluent.name, c'.datum, p⟩ = n := by
    intro n
    rw [(Datum.perm_of_sortOn hsort).mem_iff, List.mem_filterMap]
    simp only [Option.map_eq_some_iff]
  -- the function is listed, and what is found under its name is the function itself
  obtain ⟨found, hfound⟩ : ∃ found, mids.find? (fun n => n.name == c.fluent.name) = some found := by
    rw [← Option.isSome_iff_exists, List.find?_isSome]
    obtain ⟨p, hp⟩ := Option.isSome_iff_exists.mp
      ((hdecl.isSome_find?_iff htable).mpr
        (hfrom.declared_eq .intermediate ▸ hdeclared))
    exact ⟨_, hmem.mpr ⟨c, hc, p, hp, rfl⟩, by simp⟩
  obtain ⟨c', hc', p, -, rfl⟩ := hmem.mp (List.mem_of_find?_eq_some hfound)
  have hname : c'.fluent.name = c.fluent.name := by simpa using List.find?_some hfound
  obtain rfl : c' = c :=
    eq_of_count_map_eq_one (hsound.defined _ hdeclared) hc' hc (Fluent.name_injective hname) rfl
  simp [intermediateBody, Domain.intermediateCpf?, hmids, hfound, CpfDecl.datum,
    Datum.functionBody, bind, Except.bind]

theorem exists_function_of_isIntermediate {name : String} (h : t.IsIntermediate name) :
    ∃ c ∈ o.functions, c.fluent ∈ o.declared .intermediate ∧ c.fluent.name = name := by
  have hdecl := hfrom.toDeclares
  obtain ⟨p, hp, hint⟩ := h
  obtain ⟨v, -, -, rfl, -⟩ := exists_of_fluent? hdecl ht hp
  have hdeclared : v.fluent ∈ o.declared .intermediate :=
    hfrom.declared_eq .intermediate ▸ (isIntermediate_iff hdecl ht).mp ⟨p, hp, hint⟩
  have hone : v.fluent ∈ o.functions.map CpfDecl.fluent := by
    rw [← List.count_pos_iff, hsound.defined _ hdeclared]
    exact Nat.one_pos
  obtain ⟨c, hc, hfluent⟩ := List.mem_map.mp hone
  exact ⟨c, hc, hfluent ▸ hdeclared, by rw [hfluent]⟩

/-- Intermediate fluents that lead to each other use each other. -/
theorem uses_of_leads {name name' : String} (h : m.Leads t name name') :
    ∃ f g, f.name = name ∧ g.name = name' ∧ o.Uses f g := by
  obtain ⟨hint, hint', body, names, hbody, hscope, hmem⟩ := h
  obtain ⟨c, hc, hdeclared, rfl⟩ := exists_function_of_isIntermediate hfrom ht hsound hint
  obtain ⟨c', -, hdeclared', rfl⟩ := exists_function_of_isIntermediate hfrom ht hsound hint'
  cases (intermediateBody_eq hfrom ht hsound hc hdeclared).symm.trans hbody
  obtain ⟨names', hscope', hnames'⟩ :=
    Expr.exists_scopeOf (hsound.unmarked _ (Outline.body_mem_expressions hc))
  cases hscope.symm.trans hscope'
  obtain ⟨g, hg, hname⟩ := (hnames' _).mp hmem
  cases Fluent.name_injective hname
  exact ⟨c.fluent, c'.fluent, rfl, rfl, hdeclared, hdeclared', c, hc, rfl, hg⟩

theorem followable_of_sound : m.Followable t where
  table := ht.imp fun _ => And.right
  bodies name hint := by
    obtain ⟨c, hc, hdeclared, rfl⟩ := exists_function_of_isIntermediate hfrom ht hsound hint
    obtain ⟨names, hscope, -⟩ :=
      Expr.exists_scopeOf (hsound.unmarked _ (Outline.body_mem_expressions hc))
    exact ⟨c.body.datum, names, intermediateBody_eq hfrom ht hsound hc hdeclared, hscope⟩
  acyclic := by
    -- a chain of names is a chain of fluents, since a name belongs to one fluent only
    have huses : ∀ {name name'}, Relation.TransGen (m.Leads t) name name' →
        ∃ f g, f.name = name ∧ g.name = name' ∧ Relation.TransGen o.Uses f g := by
      intro name name' h
      induction h with
      | single hleads =>
        obtain ⟨f, g, hf, hg, huses⟩ := uses_of_leads hfrom ht hsound hleads
        exact ⟨f, g, hf, hg, .single huses⟩
      | tail _ hleads ih =>
        obtain ⟨f, g, hf, rfl, hfg⟩ := ih
        obtain ⟨g', k, hg', hk, huses⟩ := uses_of_leads hfrom ht hsound hleads
        cases Fluent.name_injective hg'
        exact ⟨f, k, hf, hk, hfg.tail huses⟩
    intro name hcycle
    obtain ⟨f, g, rfl, hg, huses⟩ := huses hcycle
    cases Fluent.name_injective hg
    exact hsound.acyclic f huses

/-- The names that an expression leads to are those of the fluents that it depends on. -/
theorem reaches_datum_iff {e : Expr} (he : e ∈ o.expressions) {name : String} :
    m.Reaches t e.datum name ↔ ∃ f, o.Reaches e f ∧ f.name = name := by
  have hdecl := hfrom.toDeclares
  constructor
  · intro h
    -- the body of a function is another expression, so `e` is generalized
    generalize hx : e.datum = x at h
    induction h generalizing e with
    | inScope hscope hmem =>
      subst hx
      obtain ⟨names, hscope', hnames⟩ := Expr.exists_scopeOf (hsound.unmarked e he)
      cases hscope.symm.trans hscope'
      obtain ⟨f, hf, rfl⟩ := (hnames _).mp hmem
      exact ⟨f, .inScope hf, rfl⟩
    | through hscope hmem hint hbody _ ih =>
      subst hx
      obtain ⟨names, hscope', hnames⟩ := Expr.exists_scopeOf (hsound.unmarked e he)
      cases hscope.symm.trans hscope'
      obtain ⟨c, hc, hdeclared, rfl⟩ := exists_function_of_isIntermediate hfrom ht hsound hint
      cases (intermediateBody_eq hfrom ht hsound hc hdeclared).symm.trans hbody
      obtain ⟨f, hf, hname⟩ := (hnames _).mp hmem
      cases Fluent.name_injective hname
      obtain ⟨g, hg, hgname⟩ := ih (Outline.body_mem_expressions hc) rfl
      exact ⟨g, .through hf hdeclared hc hg, hgname⟩
  · rintro ⟨f, h, rfl⟩
    induction h with
    | inScope hf =>
      obtain ⟨names, hscope, hnames⟩ := Expr.exists_scopeOf (hsound.unmarked _ he)
      exact .inScope hscope ((hnames _).mpr ⟨_, hf, rfl⟩)
    | through hf hdeclared hc _ ih =>
      obtain ⟨names, hscope, hnames⟩ := Expr.exists_scopeOf (hsound.unmarked _ he)
      have hint := (isIntermediate_iff hdecl ht).mpr
        (hfrom.declared_eq .intermediate ▸ hdeclared)
      exact .through hscope ((hnames _).mpr ⟨_, hf, rfl⟩) hint
        (intermediateBody_eq hfrom ht hsound hc hdeclared) (ih (Outline.body_mem_expressions hc))

end Sound

theorem exists_fluent?_iff_hasPlace (hfrom : m.domain.IsFrom o) (ht : t.HasFluents m groupKinds)
    {f : Fluent} : (∃ p, t.fluent? f.name = some p) ↔ o.HasPlace f := by
  rw [exists_fluent?_iff hfrom.toDeclares ht, Outline.HasPlace]
  simp only [hfrom.declared_eq]

theorem mem_keys_of_collects (hfrom : m.domain.IsFrom o) (ht : t.HasFluents m groupKinds)
    {e : Expr} (hreaches : ∀ {name}, m.Reaches t e.datum name ↔ ∃ f, o.Reaches e f ∧ f.name = name)
    (hplaces : ∀ f, o.Reaches e f → o.HasPlace f) {found : Table String PVariable}
    (hcollects : m.Collects t e.datum found) {name : String} :
    name ∈ found.keys ↔ ∃ f, o.Reaches e f ∧ f ∉ o.declared .intermediate ∧ f.name = name := by
  have hint : ∀ {f : Fluent}, t.IsIntermediate f.name ↔ f ∈ o.declared .intermediate := by
    intro f
    rw [isIntermediate_iff hfrom.toDeclares ht, hfrom.declared_eq]
  constructor
  · -- an entry is not intermediate, so its fluent is not declared so
    intro hmem
    obtain ⟨⟨key, p⟩, hentry, rfl⟩ := List.mem_map.mp hmem
    obtain ⟨hreach, hp, hother⟩ := (hcollects.2 key p).mp hentry
    obtain ⟨f, hf, rfl⟩ := hreaches.mp hreach
    refine ⟨f, hf, ?_, rfl⟩
    intro hdeclared
    obtain ⟨q, hq, hqint⟩ := hint.mpr hdeclared
    cases hp.symm.trans hq
    cases hother.symm.trans hqint
  · -- a fluent that is reached has a place, and the entry there is not intermediate
    rintro ⟨f, hf, hdeclared, rfl⟩
    obtain ⟨p, hp⟩ := (exists_fluent?_iff_hasPlace hfrom ht).mpr (hplaces f hf)
    have hother : p.isOf .intermediate = false := by
      rw [← Bool.not_eq_true]
      exact fun hpint => hdeclared (hint.mp ⟨p, hp, hpint⟩)
    exact List.mem_map.mpr ⟨(f.name, p), (hcollects.2 f.name p).mpr
      ⟨hreaches.mpr ⟨f, hf, rfl⟩, hp, hother⟩, rfl⟩

/-! ### Dependencies -/

/-- However the names of each scope are put in order, a search for dependencies ends with a
    result that has a property. -/
def Ends (m : Model) (t : Tables) (e : Datum)
    (P : Except Fault (Table String PVariable) → Prop) : Prop :=
  P (m.dependencies t e) ∧ ∀ order : Search → List String → List String,
    (∀ s names, (order s names).Perm names) →
      ∃ r, m.search t order (.of e) = some r ∧ P (r.map Search.found)

theorem ends_of_search {e : Datum} {P : Except Fault (Table String PVariable) → Prop}
    (h : ∀ order : Search → List String → List String, (∀ s names, (order s names).Perm names) →
      ∃ r, m.search t order (.of e) = some r ∧ P (r.map Search.found)) : m.Ends t e P := by
  refine ⟨?_, h⟩
  obtain ⟨r, hsearch, hr⟩ := h (fun _ names => names) fun _ names => .refl names
  cases r with
  | ok s =>
    rw [dependencies, hsearch]
    exact hr
  | error cause =>
    rw [dependencies, hsearch]
    exact hr

/-- **Dependencies in sound models.**  Take a model that was read from a text and built, with a
    sound outline, and the body of a function, the reward or a precondition.  If all that it
    depends on has a place in the fluent table, the search finds the fluents among that which
    are not intermediate.  Otherwise the search fails for a fluent without a place, which is
    an observation or the primed one of a state fluent. -/
theorem dependencies_of_sound {line : Nat} {text : String} {t₀ : Tables}
    (h : (Reading.ofText line text).verdict = .model m) (hbuild : m.build t₀ = .ok () t) :
    (∃ o, m.domain.IsFrom o) ∧ ∀ o, m.domain.IsFrom o → o.IsSound → ∀ e ∈ o.expressions,
      ((∀ f, o.Reaches e f → o.HasPlace f) → m.Ends t e.datum fun r =>
        ∃ found, r = .ok found ∧ ∀ name, name ∈ found.keys ↔
          ∃ f, o.Reaches e f ∧ f ∉ o.declared .intermediate ∧ f.name = name) ∧
      ((∃ f, o.Reaches e f ∧ ¬o.HasPlace f) → m.Ends t e.datum fun r =>
        ∃ f, o.Reaches e f ∧ ¬o.HasPlace f ∧ r = .error (.missingKey f.name) ∧
          (f ∈ o.declared .observation ∨ ∃ g ∈ o.declared .state, f = g.next)) := by
  refine ⟨Domain.exists_isFrom h, ?_⟩
  intro o hfrom hsound e he
  have ht := hasFluents_of_build hbuild
  have hfollow := followable_of_sound hfrom ht hsound
  have hreaches : ∀ {name}, m.Reaches t e.datum name ↔ ∃ f, o.Reaches e f ∧ f.name = name :=
    reaches_datum_iff hfrom ht hsound he
  obtain ⟨names, hscope, -⟩ := Expr.exists_scopeOf (hsound.unmarked e he)
  constructor
  · -- every fluent that is reached has a place: the search comes to its end
    intro hplaces
    have htabled : m.Tabled t e.datum := by
      intro name hname
      obtain ⟨f, hf, rfl⟩ := hreaches.mp hname
      exact (exists_fluent?_iff_hasPlace hfrom ht).mpr (hplaces f hf)
    apply ends_of_search
    intro order horder
    obtain ⟨s, hsearch, hcollects⟩ := (hfollow.search_of_scope horder hscope).1 htabled
    exact ⟨.ok s, hsearch, s.found, rfl, fun name =>
      mem_keys_of_collects hfrom ht hreaches hplaces hcollects⟩
  · rintro ⟨f, hf, hplace⟩
    -- the search fails, but perhaps at another fluent than `f`: which one depends on the order
    have hnot : ¬m.Tabled t e.datum := by
      intro htabled
      exact hplace ((exists_fluent?_iff_hasPlace hfrom ht).mp
        (htabled f.name (hreaches.mpr ⟨f, hf, rfl⟩)))
    apply ends_of_search
    intro order horder
    obtain ⟨name, ⟨hname, hnone⟩, hsearch⟩ := (hfollow.search_of_scope horder hscope).2 hnot
    obtain ⟨g, hg, rfl⟩ := hreaches.mp hname
    -- the name of the fault is that of a fluent without a place
    have hmissing : ¬o.HasPlace g := by
      intro hplace
      obtain ⟨p, hp⟩ := (exists_fluent?_iff_hasPlace hfrom ht).mpr hplace
      cases hnone.symm.trans hp
    exact ⟨_, hsearch, g, hg, hmissing, rfl, hsound.of_not_hasPlace he hg hmissing⟩

/-- A state fluent that follows two intermediate ones, and a reward for the next state. -/
def primedText : String := "domain d \x7b
  pvariables \x7b
    x : \x7b state-fluent, bool, default = false \x7d;
    a : \x7b action-fluent, bool, default = false \x7d;
    base : \x7b interm-fluent, bool, level = 1 \x7d;
    up : \x7b interm-fluent, bool, level = 2 \x7d;
  \x7d;
  cpfs \x7b x' = up ^ a; base = x; up = ~base; \x7d;
  reward = x';
\x7d
non-fluents n \x7b \x7d
instance i \x7b \x7d"

def primedOutline : Outline where
  vars := [⟨"x", none, "bool", .state (.truth false)⟩, ⟨"a", none, "bool", .action (.truth false)⟩,
    ⟨"base", none, "bool", .intermediate (.integer 1)⟩,
    ⟨"up", none, "bool", .intermediate (.integer 2)⟩]
  functions := [⟨⟨"x'", none⟩, .binary .and (.occurrence ⟨"up", none⟩) (.occurrence ⟨"a", none⟩)⟩,
    ⟨⟨"base", none⟩, .occurrence ⟨"x", none⟩⟩,
    ⟨⟨"up", none⟩, .unary .not (.occurrence ⟨"base", none⟩)⟩]
  reward := .occurrence ⟨"x'", none⟩
  conditions := []

theorem isSound_primedOutline : primedOutline.IsSound where
  unmarked := by decide
  declared e he f hf := by
    have hall : ∀ e ∈ primedOutline.expressions, ∀ f ∈ e.scope,
        f ∈ primedOutline.declared .state ∨ f ∈ primedOutline.declared .action ∨
          f ∈ primedOutline.declared .intermediate ∨
          ∃ g ∈ primedOutline.declared .state, f = g.next := by
      decide
    rcases hall e he f hf with hkind | hkind | hkind | hnext
    · exact .inl ⟨_, hkind⟩
    · exact .inl ⟨_, hkind⟩
    · exact .inl ⟨_, hkind⟩
    · exact .inr hnext
  defined := by decide
  acyclic := by
    have hfalls : ∀ {f g}, Relation.TransGen primedOutline.Uses f g →
        f = ⟨"up", 0⟩ ∧ g = ⟨"base", 0⟩ := by
      -- the only use of one intermediate fluent in the function of another
      have hone : ∀ {f g}, primedOutline.Uses f g → f = ⟨"up", 0⟩ ∧ g = ⟨"base", 0⟩ := by
        rintro f g ⟨hf, hg, c, hc, rfl, hmem⟩
        have hall : ∀ c ∈ primedOutline.functions, c.fluent ∈ primedOutline.declared .intermediate →
            ∀ g ∈ c.body.scope, g ∈ primedOutline.declared .intermediate →
              c.fluent = ⟨"up", 0⟩ ∧ g = ⟨"base", 0⟩ := by
          decide
        exact hall c hc hf g hmem hg
      intro f g h
      induction h with
      | single huses => exact hone huses
      | tail _ huses ih => exact ⟨ih.1, (hone huses).2⟩
    intro f hcycle
    obtain ⟨hup, hbase⟩ := hfalls hcycle
    exact absurd (hup.symm.trans hbase) (by decide)

/-- The next state depends on the state and the action, but for the reward of it the search
    fails. -/
theorem dependencies_of_primedText :
    ∃ m t, (Reading.ofText 1 primedText).verdict = .model m ∧ m.build {} = .ok () t ∧
      m.domain.IsFrom primedOutline ∧ primedOutline.IsSound ∧
      m.dependencies t primedOutline.reward.datum = .error (.missingKey "x'/0") ∧
      ∃ body found, body ∈ primedOutline.expressions ∧ m.dependencies t body.datum = .ok found ∧
        "x/0" ∈ found.keys ∧ "a/0" ∈ found.keys ∧ "base/0" ∉ found.keys := by
  have hread : ((Reading.ofText 1 primedText).verdict.model?.map fun m =>
      (m.domain.pvariables, m.domain.cpfs, m.domain.reward, m.domain.preconditions,
        (Build.tables? m.build {}).isSome)) =
      some (.list (primedOutline.vars.map fun v => v.pvariable.datum),
        .tuple [.text "cpfs", .list (primedOutline.functions.map CpfDecl.datum)],
        primedOutline.reward.datum, .list (primedOutline.conditions.map Expr.datum), true) := by
    rw [primedText, Reading.ofText_eq_ofScan 1 rfl]
    decide +kernel
  obtain ⟨m, hmodel, hview⟩ := Option.map_eq_some_iff.mp hread
  simp only [Prod.mk.injEq] at hview
  obtain ⟨hvars, hcpfs, hreward, hconditions, hbuilds⟩ := hview
  have hverdict := Verdict.eq_model_of_model? hmodel
  have hfrom : m.domain.IsFrom primedOutline :=
    ⟨⟨hvars, ⟨_, hcpfs⟩, by decide, by decide⟩, hreward, hconditions⟩
  obtain ⟨t, ht⟩ := Option.isSome_iff_exists.mp hbuilds
  have hbuild := Build.eq_ok_of_tables? ht
  have hdependencies := (dependencies_of_sound hverdict hbuild).2 _ hfrom isSound_primedOutline
  refine ⟨m, t, hverdict, hbuild, hfrom, isSound_primedOutline, ?_, ?_⟩
  · -- the reward depends on the primed fluent alone
    have hscope : ∀ f ∈ primedOutline.reward.scope,
        f = ⟨"x'", 0⟩ ∧ f ∉ primedOutline.declared .intermediate := by
      decide
    have hplace : ¬primedOutline.HasPlace ⟨"x'", 0⟩ := by
      rintro ⟨kind, -, hmem⟩
      revert hmem
      cases kind <;> decide
    obtain ⟨f, hf, -, hfails, -⟩ := ((hdependencies primedOutline.reward
      (by simp [Outline.expressions])).2 ⟨⟨"x'", 0⟩, .inScope (by decide), hplace⟩).1
    have hprimed : f = ⟨"x'", 0⟩ := by
      cases hf with
      | inScope hmem => exact (hscope f hmem).1
      | through hmem hint _ _ => exact absurd hint (hscope _ hmem).2
    rw [hfails, hprimed]
    rfl
  · -- the functions lead to one another, and to nothing that has no place
    have hplaces : ∀ {e f}, primedOutline.Reaches e f →
        e ∈ primedOutline.functions.map CpfDecl.body → primedOutline.HasPlace f := by
      have hscopes : ∀ e ∈ primedOutline.functions.map CpfDecl.body, ∀ f ∈ e.scope,
          f ∈ primedOutline.declared .state ∨ f ∈ primedOutline.declared .action ∨
            f ∈ primedOutline.declared .intermediate := by
        decide
      intro e f h
      induction h with
      | inScope hf =>
        intro he
        rcases hscopes _ he _ hf with hkind | hkind | hkind
        · exact ⟨.state, by decide, hkind⟩
        · exact ⟨.action, by decide, hkind⟩
        · exact ⟨.intermediate, by decide, hkind⟩
      | through _ _ hc _ ih => exact fun _ => ih (List.mem_map_of_mem hc)
    obtain ⟨body, hbody, hup, ha⟩ : ∃ body ∈ primedOutline.functions.map CpfDecl.body,
        ⟨"up", 0⟩ ∈ body.scope ∧ ⟨"a", 0⟩ ∈ body.scope :=
      ⟨_, List.mem_cons_self, by decide, by decide⟩
    have hx : primedOutline.Reaches body ⟨"x", 0⟩ := by
      refine .through (c := ⟨⟨"up", none⟩, .unary .not (.occurrence ⟨"base", none⟩)⟩) hup
        (by decide) (by simp [primedOutline]) ?_
      refine .through (c := ⟨⟨"base", none⟩, .occurrence ⟨"x", none⟩⟩) (by decide)
        (by decide) (by simp [primedOutline]) ?_
      exact .inScope (by decide)
    have hexpression : body ∈ primedOutline.expressions := List.mem_append_left _ hbody
    obtain ⟨found, hfound, hkeys⟩ :=
      ((hdependencies body hexpression).1 fun f hf => hplaces hf hbody).1
    refine ⟨body, found, hexpression, hfound, (hkeys _).mpr ⟨_, hx, by decide, rfl⟩,
      (hkeys _).mpr ⟨_, .inScope ha, by decide, rfl⟩, ?_⟩
    intro hmem
    obtain ⟨f, -, hnot, hname⟩ := (hkeys _).mp hmem
    have hbase : f = ⟨"base", 0⟩ := Fluent.name_injective hname
    exact absurd (hbase ▸ hnot) (by decide)

end Model

end Rddl
