/-
  Rddl/Proofs/Domain/Variables.lean
  =================================
  **The variables of a kind in canonical order.**

  A domain may have been read from a text or put together by hand.  All that the tables of a
  model need of its variables is that names and parameter types are texts (`PlainVariable`).
  A fluent may be declared several times in one kind, and then its last declaration counts
  (`PlainVariable.IsLast`).  The canonical order of a kind has the declarations that count,
  each once (`Domain.exists_ordered`).
-/
import Rddl.Proofs.Domain.Levels
import Rddl.Proofs.Model.Grounding

namespace Rddl

/-! ### Items that count in a table -/

section Kept

variable {α β : Type}

theorem Table.entries_eq_filterMap {κ : Type} [BEq κ] [LawfulBEq κ] {t : Table κ α}
    (h : t.keys.Nodup) : t.entries = t.keys.filterMap fun k => (t.find? k).map fun x => (k, x) := by
  rw [Table.keys, List.filterMap_map]
  conv_lhs => rw [← List.map_id t.entries, ← List.filterMap_eq_map]
  refine List.filterMap_congr fun e he => ?_
  simp [(Table.mem_entries_iff_find? h).mp he]

/-- A table that is filled with the values of some items holds those of the last items with
    each key. -/
theorem Table.exists_kept (key : α → String) (value : α → β) (xs : List α) :
    ∃ kept : List α,
      (Table.ofList (xs.map fun x => (key x, value x))).entries =
        kept.map (fun x => (key x, value x)) ∧
      (kept.map key).Nodup ∧ ∀ x, x ∈ kept ↔ lastWith? key (key x) xs = some x := by
  set table := Table.ofList (xs.map fun x => (key x, value x)) with htable
  have hfind : ∀ k, table.find? k = (lastWith? key k xs).map value :=
    fun k => Table.find?_ofList_lastWith?
  have hnodup : table.keys.Nodup := Table.nodup_keys_ofList _
  have hentries : table.entries =
      (table.keys.filterMap fun k => lastWith? key k xs).map fun x => (key x, value x) := by
    rw [Table.entries_eq_filterMap hnodup, List.map_filterMap]
    refine List.filterMap_congr fun k _ => ?_
    rw [hfind k]
    cases hlast : lastWith? key k xs with
    | none => rfl
    | some x => simp [key_of_lastWith? hlast]
  -- the kept items are in the order of the keys, each key where it was given first
  refine ⟨table.keys.filterMap fun k => lastWith? key k xs, hentries, ?_, fun x => ?_⟩
  · rwa [Table.keys, hentries, List.map_map] at hnodup
  · rw [List.mem_filterMap]
    constructor
    · rintro ⟨k, -, hlast⟩
      rwa [key_of_lastWith? hlast]
    · intro hlast
      have hkey := Table.mem_keys_of_find? ((hfind (key x)).trans (by rw [hlast]; rfl))
      exact ⟨key x, hkey, hlast⟩

end Kept

/-! ### Plain variables -/

/-- A variable whose name and parameter types are texts; its other parts may be any data. -/
structure PlainVariable where
  name : String
  params : Option (List String)
  kind : Datum
  range : Datum
  default : Datum
  level : Datum

namespace PlainVariable

def pvariable (v : PlainVariable) : PVariable where
  name := .text v.name
  kind := v.kind
  range := v.range
  params := (v.params.map Datum.texts).getD .absent
  default := v.default
  level := v.level

def types (v : PlainVariable) : List String := v.params.getD []

def fluent (v : PlainVariable) : Fluent := ⟨v.name, v.types.length⟩

def isOf (v : PlainVariable) (kind : FluentKind) : Bool := v.kind.isText kind.spelling

/-- A variable is the last of a kind that declares its fluent. -/
def IsLast (vars : List PlainVariable) (kind : FluentKind) (v : PlainVariable) : Prop :=
  lastWith? (fun v => v.fluent.name) v.fluent.name (vars.filter fun v => v.isOf kind) = some v

theorem fluentName_pvariable (v : PlainVariable) : v.pvariable.fluentName = .ok v.fluent.name :=
  PVariable.fluentName_eq rfl rfl

theorem paramTypes_pvariable (v : PlainVariable) :
    Model.paramTypes v.pvariable = .ok (v.types.map .text) := by
  cases h : v.params <;>
    simp [Model.paramTypes, pvariable, types, h, Datum.isAbsent, Datum.texts, Datum.items]

theorem IsLast.mem {vars : List PlainVariable} {kind : FluentKind} {v : PlainVariable}
    (h : IsLast vars kind v) : v ∈ vars ∧ v.isOf kind = true :=
  List.mem_filter.mp (mem_of_lastWith? h)

end PlainVariable

def PVarDecl.plain (v : PVarDecl) : PlainVariable where
  name := v.name
  params := v.params
  kind := .text v.role.kind.spelling
  range := .text v.range
  default := v.role.default
  level := v.role.level

/-! ### The canonical order -/

namespace Domain

variable {d : Domain} {vars : List PlainVariable} {kind : FluentKind}

/-- The table of the fluents of a kind has the variables that count. -/
theorem exists_fluents_of_plain
    (h : d.pvariables = .list (vars.map fun v => v.pvariable.datum)) (kind : FluentKind) :
    ∃ table, d.fluents kind = .ok table ∧
      (∃ kept : List PlainVariable,
        table.entries = kept.map (fun v => (v.fluent.name, v.pvariable)) ∧
        (kept.map fun v => v.fluent.name).Nodup ∧ ∀ v, v ∈ kept ↔ v.IsLast vars kind) ∧
      ∀ v : PlainVariable, v.IsLast vars kind → table.find? v.fluent.name = some v.pvariable := by
  have hfold := foldlM_addFluent kind (vars.map fun v => (v.fluent, v.pvariable))
    (by simp [PlainVariable.fluentName_pvariable]) .empty
  simp only [List.map_map, List.filter_map, Function.comp_def] at hfold
  refine ⟨_, by simp only [fluents, h, Datum.items]; exact hfold, ?_, ?_⟩
  · exact Table.exists_kept (fun v : PlainVariable => v.fluent.name) PlainVariable.pvariable _
  · intro v hlast
    refine Table.find?_ofList_lastWith?.trans ?_
    exact congrArg (Option.map PlainVariable.pvariable) hlast

/-- **The canonical order of a kind has the variables that count, each once.**  Levels must be
    integers for intermediate fluents to have an order. -/
theorem exists_ordered (h : d.pvariables = .list (vars.map fun v => v.pvariable.datum))
    (hlevels : ∀ v ∈ vars, v.isOf .intermediate = true → ∃ n, v.level = .integer n)
    (kind : FluentKind) :
    ∃ ordered : List PlainVariable,
      d.ordering kind = .ok (ordered.map fun v => v.fluent.name) ∧
      (ordered.map fun v => v.fluent.name).Nodup ∧ ∀ v, v ∈ ordered ↔ v.IsLast vars kind := by
  obtain ⟨table, htable, ⟨kept, hentries, hnodup, hkept⟩, -⟩ := exists_fluents_of_plain h kind
  by_cases hkind : kind = .intermediate
  · subst hkind
    have hvalues : table.values = kept.map PlainVariable.pvariable := by
      rw [Table.values, hentries, List.map_map]
      rfl
    -- with integers for levels the sort key is a pair of a number and a text, so sorting succeeds
    have hlevel : ∀ v ∈ kept, [v.pvariable.level, v.pvariable.name] =
        [.integer v.level.integerValue, .text v.name] := by
      intro v hv
      obtain ⟨hmem, hkind⟩ := ((hkept v).mp hv).mem
      obtain ⟨n, hn⟩ := hlevels v hmem hkind
      simp [PlainVariable.pvariable, hn, Datum.integerValue]
    have hsort := Datum.sortOn_map_level (fun p : PVariable => [p.level, p.name])
      PlainVariable.pvariable hlevel
    refine ⟨kept.insertionSort fun v w => toLex (v.level.integerValue, v.name) ≤
      toLex (w.level.integerValue, w.name), ?_, ?_, fun v => ?_⟩
    · rw [ordering, htable]
      change (Datum.sortOn (fun p : PVariable => [p.level, p.name]) table.values >>= fun sorted =>
        sorted.mapM PVariable.fluentName) = _
      rw [hvalues, hsort]
      exact mapM_map_eq_ok fun v _ => v.fluentName_pvariable
    · exact ((List.perm_insertionSort _ kept).map _).nodup_iff.mpr hnodup
    · rw [List.mem_insertionSort, hkept]
  · refine ⟨sortWith (fun v w => decide (v.fluent.name ≤ w.fluent.name)) kept, ?_,
      ((perm_sortWith _ kept).map _).nodup_iff.mpr hnodup, fun v => ?_⟩
    · have hkeys : table.keys = kept.map fun v => v.fluent.name := by
        rw [Table.keys, hentries, List.map_map]
        rfl
      rw [ordering_of_fluents htable hkind, hkeys, map_sortWith_name]
    · rw [(perm_sortWith _ kept).mem_iff, hkept]

end Domain

/-- The fluents of a kind are known with their names, in canonical order. -/
theorem Model.orderedFluents_eq {m : Model} {vars ordered : List PlainVariable} {kind : FluentKind}
    (h : m.domain.pvariables = .list (vars.map fun v => v.pvariable.datum))
    (hordering : m.domain.ordering kind = .ok (ordered.map fun v => v.fluent.name))
    (hlast : ∀ v ∈ ordered, v.IsLast vars kind) :
    m.orderedFluents kind = .ok (ordered.map fun v => (v.fluent.name, v.pvariable)) := by
  obtain ⟨table, htable, -, hfind⟩ := Domain.exists_fluents_of_plain h kind
  refine except_bind_eq_ok.mpr ⟨table, htable, except_bind_eq_ok.mpr ⟨_, hordering, ?_⟩⟩
  apply mapM_map_eq_ok
  intro v hv
  rw [hfind v (hlast v hv)]

end Rddl
