/-
  Rddl/Proofs/Model/FluentTable.lean
  ==================================
  **The fluent table of a built model.**

  A build that succeeds has put the fluents of four kinds into the fluent table, kind by
  kind, the intermediate ones last; observation fluents are left out.  So a name is in the
  table exactly if a fluent of another kind is declared with it (`exists_fluent?_iff`), and an
  intermediate fluent stands under it exactly if one is declared (`isIntermediate_iff`).
-/
import Rddl.Proofs.Domain.Classification
import Rddl.Proofs.Domain.Levels
import Rddl.Proofs.Model.Dependencies
import Rddl.Proofs.Model.Grounding

namespace Rddl

/-! ### Orders of fluents -/

namespace Domain.Declares

variable {d : Domain} {vars : List PVarDecl} {functions : List CpfDecl} {kind : FluentKind}

theorem exists_of_mem_entries (h : d.Declares vars functions) {table : Table String PVariable}
    (htable : d.fluents kind = .ok table) {name : String} {p : PVariable}
    (hmem : (name, p) ∈ table.entries) :
    ∃ v ∈ vars, v.role.kind = kind ∧ v.fluent.name = name ∧ v.pvariable = p := by
  rw [h.fluents_eq, Except.ok.injEq] at htable
  subst htable
  rw [Table.mem_entries_iff_find? (Table.nodup_keys_ofList _)] at hmem
  have hentry := Table.mem_of_find?_ofList hmem
  simp only [List.mem_map, List.mem_filter, decide_eq_true_eq, Prod.mk.injEq] at hentry
  obtain ⟨v, ⟨hv, hkind⟩, hname, hp⟩ := hentry
  exact ⟨v, hv, hkind, hname, hp⟩

theorem mem_keys_iff (h : d.Declares vars functions) {table : Table String PVariable}
    (htable : d.fluents kind = .ok table) {name : String} :
    name ∈ table.keys ↔ ∃ f ∈ d.declared kind, f.name = name := by
  rw [h.fluents_eq, Except.ok.injEq] at htable
  rw [← htable, Table.mem_keys_ofList, h.declared_eq]
  simp only [List.map_map, List.mem_map, exists_exists_and_eq_and, Function.comp]

/-- The order of the fluents of a kind has all their names. -/
theorem mem_ordering_iff (h : d.Declares vars functions) {names : List String}
    (hnames : d.ordering kind = .ok names) {name : String} :
    name ∈ names ↔ ∃ f ∈ d.declared kind, f.name = name := by
  obtain ⟨table, htable, hnames⟩ := except_bind_eq_ok.mp hnames
  rw [← h.mem_keys_iff htable]
  -- the intermediate fluents are sorted by their values, all others by their keys
  by_cases hkind : kind = .intermediate
  · subst hkind
    obtain ⟨sorted, hsorted, hnames⟩ := except_bind_eq_ok.mp hnames
    have hvalues : ∀ {p}, p ∈ sorted ↔ ∃ key, (key, p) ∈ table.entries := by
      intro p
      rw [(Datum.perm_of_sortOn hsorted).mem_iff, Table.values, List.mem_map]
      simp
    have hname : ∀ {key p}, (key, p) ∈ table.entries → p.fluentName = .ok key := by
      intro key p hentry
      obtain ⟨v, -, -, rfl, rfl⟩ := h.exists_of_mem_entries htable hentry
      exact v.fluentName_pvariable
    constructor
    · intro hmem
      obtain ⟨p, hp, hpname⟩ := exists_of_mem_mapM hnames hmem
      obtain ⟨key, hentry⟩ := hvalues.mp hp
      cases (hname hentry).symm.trans hpname
      exact List.mem_map_of_mem hentry
    · intro hmem
      obtain ⟨⟨key, p⟩, hentry, rfl⟩ := List.mem_map.mp hmem
      obtain ⟨name, hmem, hpname⟩ := exists_ok_of_mapM hnames (hvalues.mpr ⟨key, hentry⟩)
      cases (hname hentry).symm.trans hpname
      exact hmem
  · have hsorted : names = sortNames table.keys := by
      cases kind <;> first | exact absurd rfl hkind | exact (Except.ok.inj hnames).symm
    rw [hsorted, sortNames, (perm_sortWith _ _).mem_iff]

end Domain.Declares

/-! ### Groups of fluents -/

namespace Model

variable {m : Model} {t : Tables} {vars : List PVarDecl} {functions : List CpfDecl}
  {kind : FluentKind}

theorem mem_groupKinds_iff : kind ∈ groupKinds ↔ kind ≠ .observation := by
  cases kind <;> simp [groupKinds]

/-- What is found in a fluent table stands in the group of one of its kinds. -/
theorem exists_mem_group_of_find? {kinds : List FluentKind} {table : Table String FluentEntry}
    (h : m.fluentsOver kinds = .ok table) {name : String} {entry : FluentEntry}
    (hfind : table.find? name = some entry) :
    ∃ kind entries, kind ∈ kinds ∧ m.group kind = .ok entries ∧ (name, entry) ∈ entries := by
  obtain ⟨groups, hgroups, h⟩ := except_bind_eq_ok.mp h
  cases h
  obtain ⟨entries, hentries, hmem⟩ := List.mem_flatten.mp (Table.mem_of_find?_ofList hfind)
  obtain ⟨kind, hkind, hgroup⟩ := exists_of_mem_mapM hgroups hentries
  exact ⟨kind, entries, hkind, hgroup, hmem⟩

section Declared

variable (hdecl : m.domain.Declares vars functions)
include hdecl

theorem exists_of_mem_orderedFluents {fluents : List (String × PVariable)}
    (h : m.orderedFluents kind = .ok fluents) {name : String} {p : PVariable}
    (hmem : (name, p) ∈ fluents) :
    ∃ v ∈ vars, v.role.kind = kind ∧ v.fluent.name = name ∧ v.pvariable = p := by
  obtain ⟨table, htable, h⟩ := except_bind_eq_ok.mp h
  obtain ⟨ordering, -, h⟩ := except_bind_eq_ok.mp h
  obtain ⟨key, -, hkey⟩ := exists_of_mem_mapM h hmem
  split at hkey
  · next p' hfind =>
    cases hkey
    exact hdecl.exists_of_mem_entries htable (Table.mem_entries_of_find? hfind)
  · cases hkey

theorem exists_mem_orderedFluents {fluents : List (String × PVariable)}
    (h : m.orderedFluents kind = .ok fluents) {f : Fluent} (hf : f ∈ m.domain.declared kind) :
    ∃ p, (f.name, p) ∈ fluents := by
  obtain ⟨table, -, h⟩ := except_bind_eq_ok.mp h
  obtain ⟨ordering, hordering, h⟩ := except_bind_eq_ok.mp h
  have hname : f.name ∈ ordering := (hdecl.mem_ordering_iff hordering).mpr ⟨f, hf, rfl⟩
  obtain ⟨entry, hmem, hentry⟩ := exists_ok_of_mapM h hname
  split at hentry
  · next p hfind =>
    cases hentry
    exact ⟨p, hmem⟩
  · cases hentry

theorem exists_of_mem_group {entries : List (String × FluentEntry)}
    (h : m.group kind = .ok entries) {name : String} {entry : FluentEntry}
    (hmem : (name, entry) ∈ entries) :
    ∃ v ∈ vars, v.role.kind = kind ∧ v.fluent.name = name ∧ v.pvariable = entry.fluent := by
  obtain ⟨fluents, hfluents, h⟩ := except_bind_eq_ok.mp h
  obtain ⟨⟨key, p⟩, hkey, hentry⟩ := exists_of_mem_mapM h hmem
  simp only [except_bind_eq_ok] at hentry
  obtain ⟨types, -, counts, -, hentry⟩ := hentry
  cases hentry
  exact exists_of_mem_orderedFluents hdecl hfluents hkey

theorem exists_mem_group {entries : List (String × FluentEntry)}
    (h : m.group kind = .ok entries) {f : Fluent} (hf : f ∈ m.domain.declared kind) :
    ∃ entry, (f.name, entry) ∈ entries := by
  obtain ⟨fluents, hfluents, h⟩ := except_bind_eq_ok.mp h
  obtain ⟨p, hp⟩ := exists_mem_orderedFluents hdecl hfluents hf
  obtain ⟨entry, hmem, hentry⟩ := exists_ok_of_mapM h hp
  simp only [except_bind_eq_ok] at hentry
  obtain ⟨types, -, counts, -, hentry⟩ := hentry
  cases hentry
  exact ⟨_, hmem⟩

/-! ### The fluent table -/

variable (ht : t.HasFluents m groupKinds)
include ht

/-- What is in the fluent table is declared, and not as an observation. -/
theorem exists_of_fluent? {name : String} {p : PVariable} (h : t.fluent? name = some p) :
    ∃ v ∈ vars, v.role.kind ∈ groupKinds ∧ v.fluent.name = name ∧ v.pvariable = p := by
  obtain ⟨table, hover, htable⟩ := ht
  simp only [Tables.fluent?, htable, Option.bind_some, Option.map_eq_some_iff] at h
  obtain ⟨entry, hfind, rfl⟩ := h
  obtain ⟨kind, entries, hkind, hgroup, hmem⟩ := exists_mem_group_of_find? hover hfind
  obtain ⟨v, hv, rfl, hname, hp⟩ := exists_of_mem_group hdecl hgroup hmem
  exact ⟨v, hv, hkind, hname, hp⟩

theorem exists_fluent? (hkind : kind ∈ groupKinds) {f : Fluent}
    (hf : f ∈ m.domain.declared kind) : ∃ p, t.fluent? f.name = some p := by
  obtain ⟨table, hover, htable⟩ := ht
  obtain ⟨groups, hgroups, hover⟩ := except_bind_eq_ok.mp hover
  cases hover
  obtain ⟨entries, hentries, hgroup⟩ := exists_ok_of_mapM hgroups hkind
  obtain ⟨entry, hmem⟩ := exists_mem_group hdecl hgroup hf
  have hkey : f.name ∈ groups.flatten.map Prod.fst :=
    List.mem_map_of_mem (List.mem_flatten.mpr ⟨entries, hentries, hmem⟩)
  obtain ⟨entry', hfind⟩ := Option.isSome_iff_exists.mp (Table.isSome_find?_ofList.mpr hkey)
  exact ⟨entry'.fluent, by simp [Tables.fluent?, htable, hfind]⟩

/-- A name is in the fluent table exactly if a fluent that is no observation has it. -/
theorem exists_fluent?_iff {f : Fluent} :
    (∃ p, t.fluent? f.name = some p) ↔
      ∃ kind, kind ≠ .observation ∧ f ∈ m.domain.declared kind := by
  constructor
  · rintro ⟨p, hp⟩
    obtain ⟨v, hv, hkind, hname, -⟩ := exists_of_fluent? hdecl ht hp
    refine ⟨v.role.kind, mem_groupKinds_iff.mp hkind, ?_⟩
    rw [hdecl.declared_eq, ← Fluent.name_injective hname]
    exact List.mem_map_of_mem (List.mem_filter.mpr ⟨hv, by simp⟩)
  · rintro ⟨kind, hkind, hf⟩
    exact exists_fluent? hdecl ht (mem_groupKinds_iff.mpr hkind) hf

/-- Intermediate fluents come last into the fluent table, so no other stands in their place. -/
theorem isIntermediate_iff {f : Fluent} :
    t.IsIntermediate f.name ↔ f ∈ m.domain.declared .intermediate := by
  constructor
  · rintro ⟨p, hp, hint⟩
    obtain ⟨v, hv, -, hname, rfl⟩ := exists_of_fluent? hdecl ht hp
    rw [v.isOf_pvariable, decide_eq_true_eq] at hint
    rw [hdecl.declared_eq, ← Fluent.name_injective hname]
    exact List.mem_map_of_mem (List.mem_filter.mpr ⟨hv, by simpa using hint⟩)
  · intro hf
    obtain ⟨table, hover, htable⟩ := ht
    obtain ⟨groups, hgroups, hover⟩ := except_bind_eq_ok.mp hover
    cases hover
    rw [mapM_eq_ok_iff, groupKinds] at hgroups
    simp only [List.forall₂_cons_left_iff, List.forall₂_nil_left_iff] at hgroups
    obtain ⟨nonFluents, _, -, ⟨states, _, -, ⟨actions, _, -, ⟨mids, _, hmids, rfl, rfl⟩, rfl⟩,
      rfl⟩, rfl⟩ := hgroups
    -- what is found stands in the group of the intermediate fluents
    obtain ⟨entry, hmem⟩ := exists_mem_group hdecl hmids hf
    obtain ⟨found, hfound⟩ := Option.isSome_iff_exists.mp
      (Table.isSome_find?_ofList.mpr (List.mem_map_of_mem (f := Prod.fst) hmem))
    obtain ⟨v, -, hkind, -, hp⟩ :=
      exists_of_mem_group hdecl hmids (Table.mem_of_find?_ofList hfound)
    have hflat : [nonFluents, states, actions, mids].flatten =
        [nonFluents, states, actions].flatten ++ mids := by simp
    refine ⟨found.fluent, ?_, ?_⟩
    · rw [Tables.fluent?, htable, hflat, Option.bind_some, Table.find?_ofList_append, hfound]
      rfl
    · rw [← hp, v.isOf_pvariable, hkind]
      rfl

end Declared

end Model

end Rddl
