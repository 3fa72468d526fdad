/-
  Rddl/Proofs/Domain/Levels.lean
  ==============================
  **The orders of intermediate fluents and of their functions.**

  Both are sorted by level.  Within a level, fluents are sorted by their functors, and those
  of one functor stay in the order of their declarations; functions are sorted by their
  names, which go on after the functor with a slash and the arity.  The two orders agree
  exactly when, of two fluents of one level, the one declared first has the lower functor if
  and only if it has the lower name (`Domain.intermediate_orderings_agree_iff`).  That fails
  where one functor goes on from the other with a character below the slash, such as a hyphen
  or a prime, and where one functor is declared with a higher arity first.

  A stable sort puts two items in the order of their keys, and in the given order where the
  keys are the same, so two stable sorts agree if and only if they agree on every two items
  in the given order (`insertionSort_eq_iff`).
-/
import Mathlib.Data.Prod.Lex
import Rddl.Proofs.Domain.Classification
import Rddl.Proofs.Domain.Ordering

namespace Rddl

/-! ### Two stable sorts of one list -/

section StableSort

variable {α β γ : Type} [LinearOrder β] [LinearOrder γ]

/-- Within a first component, two lexicographic orders differ as the second ones do. -/
theorem toLex_le_iff_toLex_le {a b : Int} {s t : β} {u v : γ} :
    (toLex (a, s) ≤ toLex (b, t) ↔ toLex (a, u) ≤ toLex (b, v)) ↔ (a = b → (s ≤ t ↔ u ≤ v)) := by
  rw [Prod.Lex.toLex_le_toLex, Prod.Lex.toLex_le_toLex]
  by_cases hab : a = b
  · simp [hab]
  · simp [hab]

theorem orderedInsert_congr {r s : α → α → Prop} [DecidableRel r] [DecidableRel s] {x : α}
    {xs : List α} (h : ∀ y ∈ xs, r x y ↔ s x y) : xs.orderedInsert r x = xs.orderedInsert s x := by
  induction xs with
  | nil => rfl
  | cons y ys ih =>
    have hrest := ih fun z hz => h z (List.mem_cons_of_mem y hz)
    have hfirst := h y List.mem_cons_self
    by_cases hr : r x y
    · rw [List.orderedInsert_cons_of_le r ys hr, List.orderedInsert_cons_of_le s ys (hfirst.mp hr)]
    · rw [List.orderedInsert_of_not_le r ys hr,
        List.orderedInsert_of_not_le s ys (fun hs => hr (hfirst.mpr hs)), hrest]

theorem map_eq_map_iff_of_inj {δ ε : Type} {f : δ → ε} {xs ys : List δ}
    (h : ∀ x ∈ xs, ∀ y ∈ ys, f x = f y → x = y) : xs.map f = ys.map f ↔ xs = ys := by
  constructor
  · intro hmap
    have hlength : xs.length = ys.length := by simpa using congrArg List.length hmap
    apply List.ext_getElem hlength
    intro i hi hi'
    apply h _ (List.getElem_mem hi) _ (List.getElem_mem hi')
    rw [← List.getElem_map f, ← List.getElem_map f]
    · simp only [hmap]
    · simpa using hi'
    · simpa using hi
  · rintro rfl
    rfl

/-- Items in the given order whose keys are in order stay in order. -/
theorem le_of_insertionSort_eq (f : α → β) (g : α → γ) {xs : List α}
    (h : xs.insertionSort (fun x y => f x ≤ f y) = xs.insertionSort fun x y => g x ≤ g y)
    {x y : α} (hxy : [x, y].Sublist xs) (hf : f x ≤ f y) : g x ≤ g y := by
  have hpair : [x, y].Sublist (xs.insertionSort fun x y => f x ≤ f y) :=
    List.pair_sublist_insertionSort hf hxy
  rw [h] at hpair
  have htotal : Std.Total fun x y : α => g x ≤ g y := ⟨fun x y => le_total (g x) (g y)⟩
  have htrans : IsTrans α fun x y => g x ≤ g y := ⟨fun _ _ _ => le_trans⟩
  exact List.pairwise_iff_forall_sublist.mp
    (List.pairwise_insertionSort (fun x y => g x ≤ g y) xs) hpair

/-- **Two stable sorts agree exactly when they agree on every two items in the given order.** -/
theorem insertionSort_eq_iff (f : α → β) (g : α → γ) (xs : List α) :
    xs.insertionSort (fun x y => f x ≤ f y) = xs.insertionSort (fun x y => g x ≤ g y) ↔
      xs.Pairwise fun x y => f x ≤ f y ↔ g x ≤ g y := by
  constructor
  · intro h
    rw [List.pairwise_iff_forall_sublist]
    intro x y hxy
    exact ⟨le_of_insertionSort_eq f g h hxy, le_of_insertionSort_eq g f h.symm hxy⟩
  · intro h
    induction xs with
    | nil => rfl
    | cons x xs ih =>
      rw [List.pairwise_cons] at h
      rw [List.insertionSort_cons, List.insertionSort_cons, ih h.2]
      apply orderedInsert_congr
      intro y hy
      exact h.1 y ((List.mem_insertionSort _).mp hy)

omit [LinearOrder γ] in
/-- Where a key has its item in it, sorting depends on what items there are alone. -/
theorem insertionSort_eq_of_perm {key : β → Int} {xs ys : List β} (h : xs.Perm ys) :
    xs.insertionSort (fun x y => toLex (key x, x) ≤ toLex (key y, y)) =
      ys.insertionSort fun x y => toLex (key x, x) ≤ toLex (key y, y) := by
  have htotal : Std.Total fun x y : β => toLex (key x, x) ≤ toLex (key y, y) :=
    ⟨fun x y => le_total _ _⟩
  have htrans : IsTrans β fun x y => toLex (key x, x) ≤ toLex (key y, y) :=
    ⟨fun _ _ _ => le_trans⟩
  have hanti : Std.Antisymm fun x y : β => toLex (key x, x) ≤ toLex (key y, y) :=
    ⟨fun x y hxy hyx => congrArg (fun k => (ofLex k).2) (le_antisymm hxy hyx)⟩
  apply List.Perm.eq_of_pairwise' (List.pairwise_insertionSort _ _)
    (List.pairwise_insertionSort _ _)
  exact (List.perm_insertionSort _ xs).trans (h.trans (List.perm_insertionSort _ ys).symm)

end StableSort

/-! ### Sorting by level and text -/

namespace Datum

theorem compare_integer (a b : Int) :
    (Binary64.Point.value a 0).compare (.value b 0) = compareOfLessAndEq a b := by
  simp [Binary64.Point.compare, Binary64.twoTo]

theorem agrees_integer (a b : Int) : agrees (.integer a) (.integer b) = decide (a = b) := by
  simp only [agrees, numericOrder, point?, compare_integer, compareOfLessAndEq]
  rcases lt_trichotomy a b with hlt | rfl | hgt
  · simp [hlt, hlt.ne]
  · simp
  · simp [hgt.not_gt, hgt.ne']

theorem less?_integer (a b : Int) : less? (.integer a) (.integer b) = some (decide (a < b)) := by
  simp only [less?, isNumeric, numericOrder, point?, compare_integer, compareOfLessAndEq]
  rcases lt_trichotomy a b with hlt | rfl | hgt
  · simp [hlt]
  · simp
  · simp [hgt.not_gt, hgt.ne']

/-- A level and a text have the order of the levels and, within a level, of the texts. -/
theorem lessAll?_level (a b : Int) (s t : String) :
    lessAll? [.integer a, .text s] [.integer b, .text t] =
      some (decide (toLex (a, s) < toLex (b, t))) := by
  have htexts : lessAll? [.text s] [.text t] = some (decide (s < t)) := by
    by_cases hst : s = t
    · simp [lessAll?, agrees, hst]
    · simp [lessAll?, agrees, less?, hst]
  rw [lessAll?, agrees_integer, less?_integer, htexts]
  by_cases hab : a = b
  · simp [Prod.Lex.toLex_lt_toLex, hab]
  · simp [Prod.Lex.toLex_lt_toLex, hab]

end Datum

/-- Items whose keys are a level and a text can be sorted, by level and then by text. -/
theorem Datum.sortOn_map_level {α β : Type} (key : β → List Datum) (f : α → β) {level : α → Int}
    {text : α → String} {xs : List α}
    (h : ∀ x ∈ xs, key (f x) = [.integer (level x), .text (text x)]) :
    sortOn key (xs.map f) = .ok ((xs.insertionSort fun x y =>
      toLex (level x, text x) ≤ toLex (level y, text y)).map f) := by
  -- an integer and a text can always be compared, so nothing is refused
  have horder : haveOrder ((xs.map f).map key) = true := by
    rw [haveOrder_iff, List.map_map, List.pairwise_map]
    apply List.pairwise_of_forall_mem_list
    intro x hx y hy
    rw [Function.comp, Function.comp, h x hx, h y hy, lessAll?_level]
    rfl
  rw [sortOn, if_pos horder, ← sortWith_eq]
  congr 1
  symm
  apply map_sortWith
  intro x hx y hy
  rw [h x hx, h y hy, lessAll?_level]
  by_cases hle : toLex (level x, text x) ≤ toLex (level y, text y)
  · simp [hle]
  · simp [hle, not_le.mp hle]

/-! ### Functors and names -/

namespace Fluent

/-- The functor of the second fluent goes on from that of the first with a character below
    the slash. -/
def GoesOnBelow (f g : Fluent) : Prop :=
  ∃ c rest, g.functor.toList = f.functor.toList ++ c :: rest ∧ c < '/'

theorem append_slash_lt_iff {u v s t : List Char} (hv : '/' ∉ v) (huv : u < v) :
    v ++ '/' :: t < u ++ '/' :: s ↔ ∃ c rest, v = u ++ c :: rest ∧ c < '/' := by
  induction u generalizing v with
  | nil =>
    cases v with
    | nil => simp at huv
    | cons c v =>
      have hne : c ≠ '/' := fun hc => hv (by simp [hc])
      simp [List.cons_lt_cons_iff, hne]
  | cons a u ih =>
    cases v with
    | nil => simp at huv
    | cons b v =>
      rcases List.cons_lt_cons_iff.mp huv with hab | ⟨rfl, htail⟩
      · -- the first characters decide both orders
        simp [List.cons_lt_cons_iff, hab.not_gt, hab.ne']
      · simpa [List.cons_lt_cons_iff] using ih (fun hmem => hv (List.mem_cons_of_mem _ hmem)) htail

/-- Two functors and the names made from them are in opposite orders exactly when the higher
    functor goes on from the lower one with a character below the slash. -/
theorem name_lt_iff_goesOnBelow {f g : Fluent} (hg : '/' ∉ g.functor.toList)
    (h : f.functor < g.functor) : g.name < f.name ↔ f.GoesOnBelow g := by
  rw [String.lt_iff_toList_lt, toList_name, toList_name]
  exact append_slash_lt_iff hg (String.lt_iff_toList_lt.mp h)

theorem name_le_iff_arity {f g : Fluent} (h : f.functor = g.functor) :
    f.name ≤ g.name ↔ toString f.arity ≤ toString g.arity := by
  rw [← not_lt, ← not_lt, String.lt_iff_toList_lt, String.lt_iff_toList_lt, toList_name,
    toList_name, h, append_lt_append_iff, List.cons_lt_cons_iff]
  simp

/-- When two fluents are in the same order by functor and by name. -/
theorem functor_le_iff_name_le {f g : Fluent} (hf : '/' ∉ f.functor.toList)
    (hg : '/' ∉ g.functor.toList) :
    (f.functor ≤ g.functor ↔ f.name ≤ g.name) ↔
      ¬ f.GoesOnBelow g ∧ ¬ g.GoesOnBelow f ∧
        (f.functor = g.functor → toString f.arity ≤ toString g.arity) := by
  -- what goes on from a functor comes behind it
  have hlower : ∀ {f g : Fluent}, f.GoesOnBelow g → f.functor < g.functor := by
    rintro f g ⟨c, rest, hcs, -⟩
    rw [String.lt_iff_toList_lt, hcs]
    simpa using (append_lt_append_iff f.functor.toList [] (c :: rest)).mpr (by simp)
  rcases lt_trichotomy f.functor g.functor with hlt | heq | hgt
  · -- the functors are in order; the names are not if the second goes on below the slash
    have hback : ¬ g.GoesOnBelow f := fun hon => (hlower hon).not_gt hlt
    rw [← name_lt_iff_goesOnBelow hg hlt, iff_true_left hlt.le, not_lt]
    exact ⟨fun hname => ⟨hname, hback, fun heq => absurd heq hlt.ne⟩, And.left⟩
  · -- one functor: the arities decide
    have hnot : ¬ f.GoesOnBelow g ∧ ¬ g.GoesOnBelow f :=
      ⟨fun hon => (hlower hon).ne heq, fun hon => (hlower hon).ne heq.symm⟩
    simp [heq, hnot, name_le_iff_arity heq]
  · -- the functors are in the other order, and so must the names be
    have hback : ¬ f.GoesOnBelow g := fun hon => (hlower hon).not_gt hgt
    have hne : f.name ≠ g.name := fun hname => hgt.ne (congrArg functor (name_injective hname)).symm
    rw [← name_lt_iff_goesOnBelow hf hgt, iff_false_left hgt.not_ge, not_le, not_lt]
    exact ⟨fun hname => ⟨hback, hname.le, fun heq => absurd heq.symm hgt.ne⟩,
      fun hname => lt_of_le_of_ne hname.2.1 hne.symm⟩

end Fluent

/-! ### The variables and functions of a domain -/

/-- The variables that a domain holds, each with its fluent. -/
structure Domain.HasVariables (d : Domain) (vars : List (Fluent × PVariable)) : Prop where
  pvariables : d.pvariables.items = .ok (vars.map fun v => v.2.datum)
  fluentName : ∀ v ∈ vars, v.2.fluentName = .ok v.1.name

theorem nodup_names {vars : List (Fluent × PVariable)} (hdistinct : (vars.map Prod.fst).Nodup)
    (kind : FluentKind) : ((vars.filter fun v => v.2.isOf kind).map fun v => v.1.name).Nodup := by
  have hnames : ((vars.map Prod.fst).map Fluent.name).Nodup :=
    hdistinct.map Fluent.name_injective
  rw [List.map_map] at hnames
  exact hnames.sublist (List.filter_sublist.map _)

theorem Domain.ordering_of_fluents {d : Domain} {kind : FluentKind}
    {table : Table String PVariable} (htable : d.fluents kind = .ok table)
    (hkind : kind ≠ .intermediate) : d.ordering kind = .ok (sortNames table.keys) := by
  rw [ordering, htable]
  cases kind <;> first | exact absurd rfl hkind | rfl

/-- The table of the fluents of a kind holds its variables under their names. -/
theorem Domain.HasVariables.exists_fluents {d : Domain} {vars : List (Fluent × PVariable)}
    (h : d.HasVariables vars) (hdistinct : (vars.map Prod.fst).Nodup) (kind : FluentKind) :
    ∃ table, d.fluents kind = .ok table ∧
      table.entries = (vars.filter fun v => v.2.isOf kind).map (fun v => (v.1.name, v.2)) ∧
      ∀ name p, table.find? name = some p ↔
        ∃ v ∈ vars.filter fun v => v.2.isOf kind, v.1.name = name ∧ v.2 = p := by
  have hfluents : d.fluents kind = .ok (Table.ofList
      ((vars.filter fun v => v.2.isOf kind).map fun v => (v.1.name, v.2))) := by
    rw [fluents, h.pvariables]
    exact foldlM_addFluent kind vars h.fluentName .empty
  have hnodup : (((vars.filter fun v => v.2.isOf kind).map fun v => (v.1.name, v.2)).map
      Prod.fst).Nodup := by
    rw [List.map_map]
    exact nodup_names hdistinct kind
  have hentries := Table.entries_ofList hnodup
  refine ⟨_, hfluents, hentries, fun name p => ?_⟩
  rw [← Table.mem_entries_iff_find? (Table.nodup_keys_ofList _), hentries]
  simp

/-- The variables and the functions that a domain holds, each with its fluent.  The domain may
    have been read from a text or put together by hand. -/
structure Domain.Lists (d : Domain) (vars : List (Fluent × PVariable))
    (functions : List (Fluent × Datum)) : Prop where
  pvariables : d.pvariables.items = .ok (vars.map fun v => v.2.datum)
  functor : ∀ v ∈ vars, v.2.name = .text v.1.functor
  arity : ∀ v ∈ vars, v.2.arity = .ok v.1.arity
  cpfs : d.cpfList = .ok (functions.map Prod.snd)
  function : ∀ f ∈ functions, f.2.nameOf = .ok f.1.name

theorem Domain.Declares.lists {d : Domain} {vars : List PVarDecl} {functions : List CpfDecl}
    (h : d.Declares vars functions) :
    d.Lists (vars.map fun v => (v.fluent, v.pvariable))
      (functions.map fun f => (f.fluent, f.datum)) := by
  obtain ⟨header, hcpfs⟩ := h.cpfs
  constructor
  · simp [h.pvariables, Datum.items]
  · simp [PVarDecl.fluent, PVarDecl.pvariable]
  · intro v hv
    obtain ⟨w, -, rfl⟩ := List.mem_map.mp hv
    cases hparams : w.params <;>
      simp [PVariable.arity, PVarDecl.pvariable, PVarDecl.fluent, hparams, Datum.arity,
        Datum.isAbsent, Datum.texts, Datum.length]
  · simp [cpfList, hcpfs, Datum.pair, Datum.items, bind, Except.bind]
  · simp [CpfDecl.nameOf_datum]

def Datum.integerValue : Datum → Int
  | .integer n => n
  | _ => 0

def intermediates (vars : List (Fluent × PVariable)) : List (Fluent × PVariable) :=
  vars.filter fun v => v.2.isOf .intermediate

namespace Domain.Lists

variable {d : Domain} {vars : List (Fluent × PVariable)} {functions : List (Fluent × Datum)}

theorem fluentName_eq (h : d.Lists vars functions) {v : Fluent × PVariable} (hv : v ∈ vars) :
    v.2.fluentName = .ok v.1.name := by
  have harity : v.2.params.arity = .ok v.1.arity := h.arity v hv
  rw [PVariable.fluentName, Datum.fluentName, h.functor v hv, harity]
  rfl

theorem hasVariables (h : d.Lists vars functions) : d.HasVariables vars :=
  ⟨h.pvariables, fun _ hv => h.fluentName_eq hv⟩

section Levels

variable (h : d.Lists vars functions) (hdistinct : (vars.map Prod.fst).Nodup)
  (hlevels : ∀ v ∈ intermediates vars, ∃ level, v.2.level = .integer level)
  (hone : ∀ v ∈ intermediates vars, (functions.map Prod.fst).count v.1 = 1)

include h hdistinct hlevels in
/-- Intermediate fluents are ordered by level and then by functor. -/
theorem ordering_intermediate_eq :
    d.ordering .intermediate = .ok (((intermediates vars).insertionSort
      fun v w => toLex (v.2.level.integerValue, v.1.functor) ≤
        toLex (w.2.level.integerValue, w.1.functor)).map fun v => v.1.name) := by
  obtain ⟨table, htable, hentries, -⟩ := h.hasVariables.exists_fluents hdistinct .intermediate
  have hvalues : table.values = (intermediates vars).map Prod.snd := by
    rw [Table.values, hentries, List.map_map]
    rfl
  -- what is sorted by is an integer and a text, since levels are integers
  have hkeys : ∀ v ∈ intermediates vars, [v.2.level, v.2.name] =
      [.integer v.2.level.integerValue, .text v.1.functor] := by
    intro v hv
    obtain ⟨level, hlevel⟩ := hlevels v hv
    rw [hlevel, h.functor v (List.mem_of_mem_filter hv), Datum.integerValue]
  rw [ordering, htable]
  change (Datum.sortOn (fun p : PVariable => [p.level, p.name]) table.values >>= fun sorted =>
    sorted.mapM PVariable.fluentName) = _
  rw [hvalues, Datum.sortOn_map_level (fun p : PVariable => [p.level, p.name]) Prod.snd hkeys]
  apply mapM_map_eq_ok
  intro v hv
  exact h.fluentName_eq (List.mem_of_mem_filter ((List.mem_insertionSort _).mp hv))

include hdistinct hone in
/-- There is one function for each intermediate fluent. -/
theorem perm_functions :
    ((functions.map Prod.fst).filter fun f => f ∈ (intermediates vars).map Prod.fst).Perm
      ((intermediates vars).map Prod.fst) := by
  have hnodup : ((intermediates vars).map Prod.fst).Nodup :=
    hdistinct.sublist (List.filter_sublist.map _)
  rw [List.perm_iff_count]
  intro f
  by_cases hf : f ∈ (intermediates vars).map Prod.fst
  · obtain ⟨v, hv, rfl⟩ := List.mem_map.mp hf
    rw [List.count_filter (by simpa using hf), hone v hv, List.count_eq_one_of_mem hnodup hf]
  · rw [List.count_eq_zero_of_not_mem hf, List.count_eq_zero_of_not_mem]
    simp [hf]

include h hdistinct hlevels hone in
/-- The functions of intermediate fluents; a name tells the level. -/
theorem exists_cpfsOf_intermediate :
    ∃ cpfs, ∃ level : String → Int, d.cpfsOf .intermediate .ok = .ok cpfs ∧
      (cpfs.map NamedCpf.name).Perm ((intermediates vars).map fun v => v.1.name) ∧
      (∀ v ∈ intermediates vars, v.2.level.integerValue = level v.1.name) ∧
      ∀ c ∈ cpfs, c.fluent.level = .integer (level c.name) := by
  obtain ⟨table, htable, -, hfind⟩ := h.hasVariables.exists_fluents hdistinct .intermediate
  refine ⟨functions.filterMap fun f => (table.find? f.1.name).map fun p => ⟨f.1.name, f.2, p⟩,
    fun name => ((table.find? name).map fun p => p.level.integerValue).getD 0, ?_, ?_, ?_, ?_⟩
  · rw [cpfsOf, h.cpfs]
    apply filterMapM_map_eq_ok
    intro f hf
    simp [h.function f hf, htable, bind, Except.bind]
  · -- the functions that are found are those whose fluents are among the intermediate ones
    have hperm := (perm_functions hdistinct hone).map Fluent.name
    rw [List.map_map] at hperm
    refine List.Perm.trans (List.Perm.of_eq ?_) hperm
    rw [List.map_filterMap, List.filter_map, List.map_map, ← List.filterMap_eq_map,
      ← List.filterMap_eq_filter, List.filterMap_filterMap]
    apply List.filterMap_congr
    intro f hf
    cases hp : table.find? f.1.name with
    | some p =>
      obtain ⟨v, hv, hname, -⟩ := (hfind f.1.name p).mp hp
      have hmem : f.1 ∈ (intermediates vars).map Prod.fst :=
        List.mem_map.mpr ⟨v, hv, Fluent.name_injective hname⟩
      simp [hmem, Option.guard]
    | none =>
      have hmem : f.1 ∉ (intermediates vars).map Prod.fst := by
        intro hmem
        obtain ⟨v, hv, hfluent⟩ := List.mem_map.mp hmem
        have hsome := (hfind f.1.name v.2).mpr ⟨v, hv, by rw [hfluent], rfl⟩
        simp [hp] at hsome
      simp [hmem, Option.guard]
  · intro v hv
    simp [(hfind v.1.name v.2).mpr ⟨v, hv, rfl, rfl⟩]
  · intro c hc
    obtain ⟨f, -, hc⟩ := List.mem_filterMap.mp hc
    obtain ⟨p, hp, rfl⟩ := Option.map_eq_some_iff.mp hc
    obtain ⟨v, hv, -, rfl⟩ := (hfind f.1.name p).mp hp
    obtain ⟨level, hlevel⟩ := hlevels v hv
    simp [hp, hlevel, Datum.integerValue]

include h hdistinct hlevels hone in
/-- The functions of intermediate fluents are ordered by level and then by name. -/
theorem exists_intermediateCpfs_eq :
    ∃ mids, d.intermediateCpfs = .ok mids ∧ mids.map NamedCpf.name =
      ((intermediates vars).insertionSort fun v w =>
        toLex (v.2.level.integerValue, v.1.name) ≤
          toLex (w.2.level.integerValue, w.1.name)).map fun v => v.1.name := by
  obtain ⟨cpfs, level, hcpfs, hperm, hvariable, hfunction⟩ :=
    h.exists_cpfsOf_intermediate hdistinct hlevels hone
  have hkeys : ∀ c ∈ cpfs, [c.fluent.level, .text c.name] =
      [.integer (level c.name), .text c.name] := by
    intro c hc
    rw [hfunction c hc]
  have hsort := Datum.sortOn_map_level (fun c : NamedCpf => [c.fluent.level, .text c.name]) id hkeys
  rw [List.map_id, List.map_id] at hsort
  refine ⟨cpfs.insertionSort fun b c => toLex (level b.name, b.name) ≤ toLex (level c.name, c.name),
    ?_, ?_⟩
  · exact (intermediateCpfs_eq hcpfs).trans hsort
  · -- both lists are sorted by level and name, and both are known by their names
    rw [List.map_insertionSort _ (fun m n => toLex (level m, m) ≤ toLex (level n, n)),
      List.map_insertionSort _ (fun m n => toLex (level m, m) ≤ toLex (level n, n)),
      insertionSort_eq_of_perm hperm]
    · intro v hv w hw
      rw [hvariable v hv, hvariable w hw]
    · intro b _ c _
      rfl

end Levels

end Domain.Lists

/-- **When intermediate fluents and their functions are ordered alike.**  The variables of the
    domain are all different, the intermediate ones have integers for levels, and each of
    these has one function.  Then both orders exist and have the same names.  They are the
    same if and only if, of any two fluents of one level, the one declared first has the
    lower functor exactly when it has the lower name.  For functors without a slash this
    means that neither functor goes on from the other with a character below the slash, and
    that fluents of one functor are declared in the order of their arities, as texts. -/
theorem Domain.intermediate_orderings_agree_iff {d : Domain} {vars : List (Fluent × PVariable)}
    {functions : List (Fluent × Datum)} (h : d.Lists vars functions)
    (hdistinct : (vars.map Prod.fst).Nodup)
    (hlevels : ∀ v ∈ intermediates vars, ∃ level, v.2.level = .integer level)
    (hone : ∀ v ∈ intermediates vars, (functions.map Prod.fst).count v.1 = 1) :
    ∃ ordering mids, d.ordering .intermediate = .ok ordering ∧ d.intermediateCpfs = .ok mids ∧
      (mids.map NamedCpf.name).Perm ordering ∧
      (mids.map NamedCpf.name = ordering ↔ (intermediates vars).Pairwise fun v w =>
        v.2.level = w.2.level → (v.1.functor ≤ w.1.functor ↔ v.1.name ≤ w.1.name)) ∧
      ((∀ v ∈ vars, '/' ∉ v.1.functor.toList) →
        (mids.map NamedCpf.name = ordering ↔ (intermediates vars).Pairwise fun v w =>
          v.2.level = w.2.level → ¬ v.1.GoesOnBelow w.1 ∧ ¬ w.1.GoesOnBelow v.1 ∧
            (v.1.functor = w.1.functor → toString v.1.arity ≤ toString w.1.arity))) := by
  obtain ⟨mids, hmids, hnames⟩ := h.exists_intermediateCpfs_eq hdistinct hlevels hone
  have hordering := h.ordering_intermediate_eq hdistinct hlevels
  have hagree : mids.map NamedCpf.name = ((intermediates vars).insertionSort fun v w =>
        toLex (v.2.level.integerValue, v.1.functor) ≤
          toLex (w.2.level.integerValue, w.1.functor)).map (fun v => v.1.name) ↔
      (intermediates vars).Pairwise fun v w =>
        v.2.level = w.2.level → (v.1.functor ≤ w.1.functor ↔ v.1.name ≤ w.1.name) := by
    rw [hnames, map_eq_map_iff_of_inj, insertionSort_eq_iff]
    · apply List.Pairwise.iff_of_mem
      intro v w hv hw
      obtain ⟨a, ha⟩ := hlevels v hv
      obtain ⟨b, hb⟩ := hlevels w hw
      rw [toLex_le_iff_toLex_le, ha, hb, Datum.integer.injEq]
      simp only [Datum.integerValue]
      exact imp_congr_right fun _ => Iff.comm
    · -- the names are all different
      intro v hv w hw hname
      have hv := List.mem_of_mem_filter ((List.mem_insertionSort _).mp hv)
      have hw := List.mem_of_mem_filter ((List.mem_insertionSort _).mp hw)
      exact List.inj_on_of_nodup_map hdistinct hv hw (Fluent.name_injective hname)
  refine ⟨_, mids, hordering, hmids, ?_, hagree, ?_⟩
  · rw [hnames]
    exact ((List.perm_insertionSort _ _).trans (List.perm_insertionSort _ _).symm).map _
  · intro hslash
    rw [hagree]
    apply List.Pairwise.iff_of_mem
    intro v w hv hw
    rw [Fluent.functor_le_iff_name_le (hslash v (List.mem_of_mem_filter hv))
      (hslash w (List.mem_of_mem_filter hw))]

/-- A domain with the intermediate fluents `a` and `a-b` on one level, and a function for
    each. -/
def hyphenatedLevelText : String := "domain d \x7b
  pvariables \x7b
    x : \x7b state-fluent, bool, default = true \x7d;
    a : \x7b interm-fluent, bool, level = 1 \x7d;
    a-b : \x7b interm-fluent, bool, level = 1 \x7d;
  \x7d;
  cpfs \x7b x' = a; a = x; a-b = x; \x7d;
  reward = 1;
\x7d
non-fluents n \x7b \x7d
instance i \x7b \x7d"

/-- The fluents are in the order `a`, `a-b`, and their functions are not. -/
theorem Domain.intermediate_orderings_of_hyphenatedLevelText :
    ∃ m, (Reading.ofText 1 hyphenatedLevelText).verdict = .model m ∧
      ∃ vars functions, m.domain.Lists vars functions ∧
        vars.map Prod.fst = [⟨"x", 0⟩, ⟨"a", 0⟩, ⟨"a-b", 0⟩] ∧
        functions.map Prod.fst = [⟨"x'", 0⟩, ⟨"a", 0⟩, ⟨"a-b", 0⟩] ∧
        ∃ ordering mids, m.domain.ordering .intermediate = .ok ordering ∧
          m.domain.intermediateCpfs = .ok mids ∧ mids.map NamedCpf.name ≠ ordering := by
  have hread : ((Reading.ofText 1 hyphenatedLevelText).verdict.model?.map fun m =>
      (m.domain.allDeclared, m.domain.defined, m.domain.declared .intermediate,
        m.domain.levels.map fun l => (l.2.className, l.2.integerValue))) =
      some ([⟨"x", 0⟩, ⟨"a", 0⟩, ⟨"a-b", 0⟩], [⟨"x'", 0⟩, ⟨"a", 0⟩, ⟨"a-b", 0⟩],
        [⟨"a", 0⟩, ⟨"a-b", 0⟩], [("int", 1), ("int", 1)]) := by
    rw [hyphenatedLevelText, Reading.ofText_eq_ofScan 1 rfl]
    decide +kernel
  obtain ⟨m, hmodel, hview⟩ := Option.map_eq_some_iff.mp hread
  simp only [Prod.mk.injEq] at hview
  obtain ⟨hall, hdefined, hmid, hlevel⟩ := hview
  have hverdict := Verdict.eq_model_of_model? hmodel
  obtain ⟨vars, functions, hdecl⟩ := declares_of_verdict hverdict
  have hlists := hdecl.lists
  have hvars : (vars.map fun v => (v.fluent, v.pvariable)).map Prod.fst =
      [⟨"x", 0⟩, ⟨"a", 0⟩, ⟨"a-b", 0⟩] := by
    rw [← hall, hdecl.allDeclared_eq, List.map_map]
    rfl
  have hfunctions : (functions.map fun f => (f.fluent, f.datum)).map Prod.fst =
      [⟨"x'", 0⟩, ⟨"a", 0⟩, ⟨"a-b", 0⟩] := by
    rw [← hdefined, hdecl.defined_eq, List.map_map]
    rfl
  have hfluents : (intermediates (vars.map fun v => (v.fluent, v.pvariable))).map Prod.fst =
      [⟨"a", 0⟩, ⟨"a-b", 0⟩] := by
    rw [← hmid, hdecl.declared_eq, intermediates, List.filter_map, List.map_map]
    simp only [Function.comp_def, PVarDecl.isOf_pvariable]
  -- both fluents are on level 1
  have hone : ∀ v ∈ intermediates (vars.map fun v => (v.fluent, v.pvariable)),
      v.2.level = .integer 1 := by
    intro v hv
    obtain ⟨hv, hkind⟩ := List.mem_filter.mp hv
    obtain ⟨w, hw, rfl⟩ := List.mem_map.mp hv
    obtain ⟨k, hk⟩ := Role.exists_of_kind_intermediate (by simpa [w.isOf_pvariable] using hkind)
    have hmem : (k.datum.className, k.datum.integerValue) ∈ [("int", (1 : Int)), ("int", 1)] :=
      hlevel ▸ List.mem_map_of_mem (hdecl.mem_levels_iff.mpr ⟨w, hw, k, hk, rfl, rfl⟩)
    have hlevel : w.pvariable.level = k.datum := by simp [PVarDecl.pvariable, hk, Role.level]
    simp only [hlevel]
    cases hdatum : k.datum <;> simp_all [Datum.className, Datum.integerValue]
  obtain ⟨ordering, mids, hordering, hmids, -, hagree, -⟩ := intermediate_orderings_agree_iff hlists
    (by rw [hvars]; decide) (fun v hv => ⟨1, hone v hv⟩) (by
      intro v hv
      have hmem : v.1 ∈ [(⟨"a", 0⟩ : Fluent), ⟨"a-b", 0⟩] := hfluents ▸ List.mem_map_of_mem hv
      rw [hfunctions]
      rcases List.mem_pair.mp hmem with heq | heq
      · rw [heq]
        decide
      · rw [heq]
        decide)
  refine ⟨m, hverdict, _, _, hlists, hvars, hfunctions, ordering, mids, hordering, hmids, ?_⟩
  -- equal orders would make the names compare as the functors do
  intro heq
  have hpairs : ((intermediates (vars.map fun v => (v.fluent, v.pvariable))).map
      Prod.fst).Pairwise fun f g => f.functor ≤ g.functor ↔ f.name ≤ g.name := by
    rw [List.pairwise_map]
    refine (hagree.mp heq).imp_of_mem ?_
    intro v w hv hw hvw
    exact hvw (by rw [hone v hv, hone w hw])
  rw [hfluents] at hpairs
  revert hpairs
  decide

end Rddl
