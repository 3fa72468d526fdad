/-
  Rddl/Proofs/Model/Coverage.lean
  ===============================
  **Which declared variables the fluent table has.**

  Where all declared fluents are different, the fluent table of a built model has one entry
  for every declared variable that is no observation, with that variable and one size for
  each of its parameters, and it has no other entry (`Model.fluents_of_build`).  Observations
  are left out, so the table has all variables only where none is declared.
-/
import Rddl.Proofs.Model.FluentTable

namespace Rddl

/-! ### Single entries -/

namespace Table

variable {κ α : Type} [BEq κ] [LawfulBEq κ] {t : Table κ α} (h : t.keys.Nodup) {key : κ}
include h

theorem exists_find?_of_mem_keys (hkey : key ∈ t.keys) : ∃ value, t.find? key = some value := by
  obtain ⟨⟨_, value⟩, hmem, rfl⟩ := List.mem_map.mp hkey
  exact ⟨value, (mem_entries_iff_find? h).mp hmem⟩

theorem filter_entries_of_find? {value : α} (hfind : t.find? key = some value) :
    t.entries.filter (fun e => e.1 == key) = [(key, value)] := by
  have hmem := (mem_entries_iff_find? h).mpr hfind
  have hnodup : (t.entries.filter fun e => e.1 == key).Nodup := (List.Nodup.of_map _ h).filter _
  apply List.perm_singleton.mp
  rw [List.perm_ext_iff_of_nodup hnodup (List.nodup_singleton _)]
  rintro ⟨key', value'⟩
  rw [List.mem_filter, List.mem_singleton]
  constructor
  · rintro ⟨hmem', hkey⟩
    obtain rfl : key' = key := eq_of_beq hkey
    cases ((mem_entries_iff_find? h).mp hmem').symm.trans hfind
    rfl
  · rintro heq
    cases heq
    exact ⟨hmem, beq_self_eq_true key⟩

end Table

namespace PVarDecl

/-- A table has one entry under the name of a fluent, and this holds its declaration and one
    size for each parameter. -/
def HasEntry (v : PVarDecl) (table : Table String FluentEntry) : Prop :=
  ∃ shape : List Nat, shape.length = v.fluent.arity ∧
    table.entries.filter (fun e => e.1 == v.fluent.name) = [(v.fluent.name, ⟨v.pvariable, shape⟩)]

theorem HasEntry.mem_keys {v : PVarDecl} {table : Table String FluentEntry}
    (h : v.HasEntry table) : v.fluent.name ∈ table.keys := by
  obtain ⟨shape, -, hentries⟩ := h
  have hmem : (v.fluent.name, ⟨v.pvariable, shape⟩) ∈
      table.entries.filter fun e => e.1 == v.fluent.name := by
    rw [hentries]
    exact List.mem_singleton_self _
  exact List.mem_map_of_mem (List.mem_of_mem_filter hmem)

end PVarDecl

/-! ### The fluent table -/

namespace Model

variable {m : Model} {t t₀ : Tables} {vars : List PVarDecl} {functions : List CpfDecl}
  {kind : FluentKind} {entries : List (String × FluentEntry)}

/-- The entries of a group are made of declarations of the kind. -/
theorem exists_shaped_of_mem_group (hdecl : m.domain.Declares vars functions)
    (h : m.group kind = .ok entries) {name : String} {entry : FluentEntry}
    (hmem : (name, entry) ∈ entries) :
    ∃ v ∈ vars, v.role.kind = kind ∧ v.fluent.name = name ∧ v.pvariable = entry.fluent ∧
      entry.shape.length = v.fluent.arity := by
  obtain ⟨v, hv, hkind, hname, hp⟩ := exists_of_mem_group hdecl h hmem
  refine ⟨v, hv, hkind, hname, hp, ?_⟩
  obtain ⟨fluents, -, h⟩ := except_bind_eq_ok.mp h
  obtain ⟨⟨key, p⟩, -, hentry⟩ := exists_of_mem_mapM h hmem
  simp only [except_bind_eq_ok] at hentry
  obtain ⟨types, htypes, counts, hcounts, hentry⟩ := hentry
  cases hentry
  change v.pvariable = p at hp
  rw [← hp, v.paramTypes_pvariable] at htypes
  cases htypes
  rw [← (mapM_eq_ok_iff.mp hcounts).length_eq, List.length_map]
  rfl

theorem nodup_keys_of_fluentsOver {kinds : List FluentKind} {table : Table String FluentEntry}
    (h : m.fluentsOver kinds = .ok table) : table.keys.Nodup := by
  obtain ⟨groups, -, h⟩ := except_bind_eq_ok.mp h
  cases h
  exact Table.nodup_keys_ofList _

section Distinct

variable (hdecl : m.domain.Declares vars functions) (hdistinct : m.domain.allDeclared.Nodup)
  {table : Table String FluentEntry} (hover : m.fluentsOver groupKinds = .ok table)
  {v : PVarDecl} (hv : v ∈ vars)
include hdecl hdistinct hover hv

/-- What is found under the name of a declared variable is this variable, and no observation. -/
theorem of_find?_fluents {entry : FluentEntry} (hfind : table.find? v.fluent.name = some entry) :
    v.role.kind ≠ .observation ∧ v.pvariable = entry.fluent ∧
      entry.shape.length = v.fluent.arity := by
  obtain ⟨kind, entries, hkind, hgroup, hmem⟩ := exists_mem_group_of_find? hover hfind
  obtain ⟨w, hw, rfl, hname, hp, hlength⟩ := exists_shaped_of_mem_group hdecl hgroup hmem
  rw [hdecl.allDeclared_eq] at hdistinct
  obtain rfl : w = v := List.inj_on_of_nodup_map hdistinct hw hv (Fluent.name_injective hname)
  exact ⟨mem_groupKinds_iff.mp hkind, hp, hlength⟩

theorem hasEntry_of_fluentsOver (hkind : v.role.kind ≠ .observation) : v.HasEntry table := by
  have hdeclared : v.fluent ∈ m.domain.declared v.role.kind := by
    rw [hdecl.declared_eq]
    exact List.mem_map_of_mem (List.mem_filter.mpr ⟨hv, by simp⟩)
  obtain ⟨p, hp⟩ := exists_fluent? (t := { fluents? := some table }) hdecl ⟨table, hover, rfl⟩
    (mem_groupKinds_iff.mpr hkind) hdeclared
  obtain ⟨entry, hfind, -⟩ := Option.map_eq_some_iff.mp hp
  obtain ⟨-, hfluent, hlength⟩ := of_find?_fluents hdecl hdistinct hover hv hfind
  refine ⟨entry.shape, hlength, ?_⟩
  rw [hfluent]
  exact Table.filter_entries_of_find? (nodup_keys_of_fluentsOver hover) hfind

theorem notMem_keys_of_observation (hkind : v.role.kind = .observation) :
    v.fluent.name ∉ table.keys := by
  intro hmem
  obtain ⟨entry, hfind⟩ := Table.exists_find?_of_mem_keys (nodup_keys_of_fluentsOver hover) hmem
  exact (of_find?_fluents hdecl hdistinct hover hv hfind).1 hkind

end Distinct

/-- **The fluent table has the declared variables that are no observations.**  Take a model that
    was read from a text and declares no fluent twice, and build it.  Then every declared
    variable but the observations has exactly one entry in the fluent table, under its name,
    with one size for each parameter.  There are no other entries.  So all variables have one
    exactly if none of them is an observation. -/
theorem fluents_of_build {line : Nat} {text : String}
    (h : (Reading.ofText line text).verdict = .model m) (hdistinct : m.domain.allDeclared.Nodup)
    (hbuild : m.build t₀ = .ok () t) :
    ∃ vars functions table, m.domain.Declares vars functions ∧ t.fluents? = some table ∧
      (∀ v ∈ vars, v.role.kind ≠ .observation → v.HasEntry table) ∧
      (∀ v ∈ vars, v.role.kind = .observation → v.fluent.name ∉ table.keys) ∧
      table.keys.Perm ((vars.filter fun v => v.role.kind ≠ .observation).map fun v =>
        v.fluent.name) ∧
      ((∀ v ∈ vars, v.HasEntry table) ↔ ∀ v ∈ vars, v.role.kind ≠ .observation) := by
  obtain ⟨vars, functions, hdecl⟩ := Domain.declares_of_verdict h
  obtain ⟨table, hover, htable⟩ := hasFluents_of_build hbuild
  have hentry : ∀ v ∈ vars, v.role.kind ≠ .observation → v.HasEntry table :=
    fun v hv => hasEntry_of_fluentsOver hdecl hdistinct hover hv
  have hnone : ∀ v ∈ vars, v.role.kind = .observation → v.fluent.name ∉ table.keys :=
    fun v hv => notMem_keys_of_observation hdecl hdistinct hover hv
  refine ⟨vars, functions, table, hdecl, htable, hentry, hnone, ?_, ?_⟩
  · have hnames : ((vars.filter fun v => v.role.kind ≠ .observation).map fun v =>
        v.fluent.name).Nodup := by
      rw [hdecl.allDeclared_eq] at hdistinct
      have hnodup := hdistinct.map Fluent.name_injective
      rw [List.map_map] at hnodup
      exact hnodup.sublist (List.filter_sublist.map _)
    -- neither side lists a name twice, so equal members are enough
    rw [List.perm_ext_iff_of_nodup (nodup_keys_of_fluentsOver hover) hnames]
    intro name
    simp only [List.mem_map, List.mem_filter, decide_eq_true_eq]
    constructor
    · intro hname
      obtain ⟨entry, hfind⟩ :=
        Table.exists_find?_of_mem_keys (nodup_keys_of_fluentsOver hover) hname
      obtain ⟨kind, entries, hkind, hgroup, hmem⟩ := exists_mem_group_of_find? hover hfind
      obtain ⟨v, hv, rfl, hname, -⟩ := exists_of_mem_group hdecl hgroup hmem
      exact ⟨v, ⟨hv, mem_groupKinds_iff.mp hkind⟩, hname⟩
    · rintro ⟨v, ⟨hv, hkind⟩, rfl⟩
      exact (hentry v hv hkind).mem_keys
  · constructor
    · intro hall v hv hkind
      exact hnone v hv hkind (hall v hv).mem_keys
    · intro hall v hv
      exact hentry v hv (hall v hv)

def watchedText : String := "domain d \x7b
  types \x7b cell : object; \x7d;
  pvariables \x7b
    seen(cell) : \x7b observ-fluent, bool \x7d;
    at(cell) : \x7b state-fluent, bool, default = false \x7d;
    go : \x7b action-fluent, bool, default = false \x7d;
  \x7d;
  cpfs \x7b at'(?c) = at(?c); seen(?c) = at'(?c); \x7d;
  reward = 1;
\x7d
non-fluents n \x7b objects \x7b cell : \x7bc1, c2\x7d; \x7d; \x7d
instance i \x7b \x7d"

/-- Of three declared fluents two are in the table. -/
theorem fluents_of_watchedText :
    ∃ m t table, (Reading.ofText 1 watchedText).verdict = .model m ∧ m.build {} = .ok () t ∧
      m.domain.allDeclared = [⟨"seen", 1⟩, ⟨"at", 1⟩, ⟨"go", 0⟩] ∧ t.fluents? = some table ∧
      Fluent.name ⟨"at", 1⟩ ∈ table.keys ∧ Fluent.name ⟨"go", 0⟩ ∈ table.keys ∧
      Fluent.name ⟨"seen", 1⟩ ∉ table.keys := by
  have hread : ((Reading.ofText 1 watchedText).verdict.model?.bind fun m =>
      (Build.tables? m.build {}).map fun t =>
        (m.domain.allDeclared, m.domain.declared .observation)) =
      some ([⟨"seen", 1⟩, ⟨"at", 1⟩, ⟨"go", 0⟩], [⟨"seen", 1⟩]) := by
    rw [watchedText, Reading.ofText_eq_ofScan 1 rfl]
    decide +kernel
  obtain ⟨m, hmodel, hview⟩ := Option.bind_eq_some_iff.mp hread
  obtain ⟨t, ht, hview⟩ := Option.map_eq_some_iff.mp hview
  obtain ⟨hall, hobservations⟩ := Prod.mk.inj hview
  have hverdict := Verdict.eq_model_of_model? hmodel
  have hbuild := Build.eq_ok_of_tables? ht
  have hdistinct : m.domain.allDeclared.Nodup := by
    rw [hall]
    decide
  obtain ⟨vars, functions, table, hdecl, htable, hentry, hnone, -⟩ :=
    fluents_of_build hverdict hdistinct hbuild
  -- a fluent that is no observation has an entry
  have hother : ∀ f ∈ m.domain.allDeclared, f ∉ m.domain.declared .observation →
      f.name ∈ table.keys := by
    rw [hdecl.allDeclared_eq, hdecl.declared_eq]
    intro f hf hnot
    obtain ⟨v, hv, rfl⟩ := List.mem_map.mp hf
    refine (hentry v hv fun hkind => hnot ?_).mem_keys
    exact List.mem_map_of_mem (List.mem_filter.mpr ⟨hv, by simpa using hkind⟩)
  -- and an observation has none
  have hobservation : ∀ f ∈ m.domain.declared .observation, f.name ∉ table.keys := by
    rw [hdecl.declared_eq]
    intro f hf
    obtain ⟨v, hv, rfl⟩ := List.mem_map.mp hf
    rw [List.mem_filter, decide_eq_true_eq] at hv
    exact hnone v hv.1 hv.2
  rw [hall, hobservations] at hother
  rw [hobservations] at hobservation
  exact ⟨m, t, table, hverdict, hbuild, hall, htable, hother _ (by decide) (by decide),
    hother _ (by decide) (by decide), hobservation _ (by decide)⟩

end Model

end Rddl
