/-
  Rddl/Proofs/Model/Names.lean
  ============================
  **Grounded fluents have different names.**

  The name of a grounded fluent is its functor, followed by the objects in round brackets
  with commas between them.  Functors and objects are identifiers, which have none of these
  signs, so that a name can be taken apart again (`Grounded.ofName_grounded`).  Where no
  fluent is declared twice and no object is listed twice for a type, all the names of a built
  model are therefore different (`Model.names_of_build`).
-/
import Rddl.Proofs.Model.FluentTable
import Rddl.Proofs.Model.Permutation
import Rddl.Proofs.Syntax.Parts

namespace Rddl

/-! ### Names taken apart -/

/-- What the name of a grounded fluent tells: the functor and, if there are brackets, the
    objects in them. -/
structure Grounded where
  functor : List Char
  objects? : Option (List (List Char))

namespace Grounded

def split (inner : List Char) : List (List Char) :=
  if inner.isEmpty then [] else inner.splitOn ','

def ofName (name : List Char) : Grounded where
  functor := name.takeWhile (· ≠ '(')
  objects? := (name.dropWhile (· ≠ '(')).tail?.map fun rest => split rest.dropLast

theorem split_intercalate {args : List (List Char)} (hne : ∀ a ∈ args, a ≠ [])
    (hcomma : ∀ a ∈ args, ',' ∉ a) : split ([','].intercalate args) = args := by
  cases args with
  | nil => rfl
  | cons a args =>
    have hsplit := List.splitOn_intercalate ',' hcomma (List.cons_ne_nil a args)
    have hinner : [','].intercalate (a :: args) ≠ [] := by
      intro hnil
      rw [hnil, List.splitOn_nil] at hsplit
      obtain ⟨rfl, -⟩ := List.cons.inj hsplit
      exact hne [] List.mem_cons_self rfl
    rw [split, if_neg (by simpa using hinner), hsplit]

theorem ofName_grounded {v : PVarDecl} {args : List String} (hname : '(' ∉ v.name.toList)
    (hne : ∀ a ∈ args, a.toList ≠ []) (hcomma : ∀ a ∈ args, ',' ∉ a.toList) :
    ofName (v.grounded args).toList =
      ⟨v.name.toList, v.params.map fun _ => args.map String.toList⟩ := by
  -- the functor ends before the first bracket, if there is one
  have hfunctor : ∀ c ∈ v.name.toList, decide (c ≠ '(') = true := by
    intro c hc
    simpa using fun heq : c = '(' => hname (heq ▸ hc)
  cases hparams : v.params with
  | none =>
    rw [ofName, PVarDecl.grounded, hparams, List.takeWhile_eq_self_iff.mpr hfunctor,
      List.dropWhile_eq_nil_iff.mpr hfunctor]
    rfl
  | some params =>
    have hlist : (v.grounded args).toList =
        v.name.toList ++ '(' :: ([','].intercalate (args.map String.toList) ++ [')']) := by
      rw [PVarDecl.grounded, hparams]
      simp [String.toList_intercalate]
    -- no object has a comma in it, so the commas are where the objects end
    have hobjects : split ([','].intercalate (args.map String.toList)) =
        args.map String.toList := by
      apply split_intercalate
      · simpa using hne
      · simpa using hcomma
    rw [ofName, hlist, List.takeWhile_append_of_pos hfunctor, List.dropWhile_append_of_pos hfunctor]
    simp [hobjects]

end Grounded

/-- Names of fluents over identifiers tell the fluent and its objects. -/
theorem PVarDecl.grounded_inj {v w : PVarDecl} {args args' : List String}
    (hv : Lexeme.isIdent v.name.toList = true) (hw : Lexeme.isIdent w.name.toList = true)
    (hargs : ∀ a ∈ args, Lexeme.isIdent a.toList = true)
    (hargs' : ∀ a ∈ args', Lexeme.isIdent a.toList = true)
    (hlength : args.length = v.fluent.arity) (hlength' : args'.length = w.fluent.arity)
    (h : v.grounded args = w.grounded args') : v.fluent = w.fluent ∧ args = args' := by
  have hsigns : ∀ {s : String}, Lexeme.isIdent s.toList = true →
      s.toList ≠ [] ∧ '(' ∉ s.toList ∧ ',' ∉ s.toList := by
    intro s hs
    have htail := Lexeme.isIdentTail_of_isIdent hs
    refine ⟨?_, Lexeme.notMem_of_isIdentTail (by decide) (by decide) htail,
      Lexeme.notMem_of_isIdentTail (by decide) (by decide) htail⟩
    intro hnil
    rw [hnil] at hs
    cases hs
  have happart := Grounded.ofName_grounded (hsigns hv).2.1 (fun a ha => (hsigns (hargs a ha)).1)
    fun a ha => (hsigns (hargs a ha)).2.2
  have happart' := Grounded.ofName_grounded (hsigns hw).2.1
    (fun a ha => (hsigns (hargs' a ha)).1) fun a ha => (hsigns (hargs' a ha)).2.2
  rw [h, happart', Grounded.mk.injEq, String.toList_inj] at happart
  obtain ⟨hname, hobjects⟩ := happart
  have hsame : args = args' := by
    cases hparams : v.params with
    | none =>
      cases hparams' : w.params with
      | none =>
        -- without a parameter list there are no objects
        rw [fluent, hparams] at hlength
        rw [fluent, hparams'] at hlength'
        rw [List.length_eq_zero_iff.mp hlength, List.length_eq_zero_iff.mp hlength']
      | some params => simp [hparams, hparams'] at hobjects
    | some params =>
      cases hparams' : w.params with
      | none => simp [hparams, hparams'] at hobjects
      | some params' =>
        simp only [hparams, hparams', Option.map_some, Option.some.injEq] at hobjects
        exact (List.map_injective_iff.mpr (fun _ _ => String.toList_inj.mp) hobjects).symm
  refine ⟨?_, hsame⟩
  have harity : v.fluent.arity = w.fluent.arity := by rw [← hlength, ← hlength', hsame]
  exact Fluent.mk.injEq .. ▸ ⟨hname.symm, harity⟩

/-! ### Combinations of objects -/

section Combinations

variable {α : Type}

theorem of_mem_combinations {lists : List (List α)} {args : List α}
    (h : args ∈ Model.combinations lists) :
    args.length = lists.length ∧ ∀ a ∈ args, ∃ xs ∈ lists, a ∈ xs := by
  induction lists generalizing args with
  | nil => simp_all [Model.combinations]
  | cons xs rest ih =>
    simp only [Model.combinations, List.mem_flatMap, List.mem_map] at h
    obtain ⟨x, hx, args, hargs, rfl⟩ := h
    obtain ⟨hlength, hmem⟩ := ih hargs
    refine ⟨by rw [List.length_cons, List.length_cons, hlength], fun a ha => ?_⟩
    rcases List.mem_cons.mp ha with rfl | ha
    · exact ⟨xs, List.mem_cons_self, hx⟩
    · obtain ⟨ys, hys, hay⟩ := hmem a ha
      exact ⟨ys, List.mem_cons_of_mem xs hys, hay⟩

theorem nodup_combinations {lists : List (List α)} (h : ∀ xs ∈ lists, xs.Nodup) :
    (Model.combinations lists).Nodup := by
  induction lists with
  | nil => simp [Model.combinations]
  | cons xs rest ih =>
    have hrest := ih fun ys hys => h ys (List.mem_cons_of_mem xs hys)
    rw [Model.combinations, List.nodup_flatMap]
    refine ⟨fun x _ => hrest.map (List.cons_injective), ?_⟩
    refine (h xs List.mem_cons_self).imp fun hne args hargs hargs' => ?_
    obtain ⟨_, -, rfl⟩ := List.mem_map.mp hargs
    obtain ⟨_, -, heq⟩ := List.mem_map.mp hargs'
    exact hne (List.cons.inj heq).1.symm

end Combinations

/-! ### Fluents in canonical order -/

namespace Model

variable {m : Model} {t t₀ : Tables} {kind : FluentKind}

/-- The fluents of a kind in canonical order are its variables, each once. -/
theorem exists_perm_of_orderedFluents {vars : List (Fluent × PVariable)}
    (h : m.domain.HasVariables vars) (hdistinct : (vars.map Prod.fst).Nodup)
    {fluents : List (String × PVariable)} (hfluents : m.orderedFluents kind = .ok fluents) :
    ∃ ordered : List (Fluent × PVariable),
      ordered.Perm (vars.filter fun v => v.2.isOf kind) ∧
        fluents = ordered.map fun v => (v.1.name, v.2) := by
  -- only the intermediate fluents need an order on their levels
  by_cases hkind : kind = .intermediate
  · subst hkind
    have horder := haveOrder_of_orderedFluents h hdistinct hfluents
    obtain ⟨ordered, hperm, hordered⟩ := exists_orderedFluents_of_haveOrder h hdistinct horder
    cases hfluents.symm.trans hordered
    exact ⟨ordered, hperm, rfl⟩
  · obtain ⟨table, htable, -, hfind⟩ := h.exists_fluents hdistinct kind
    have hperm := perm_sortWith (fun v w => decide (v.1.name ≤ w.1.name))
      (vars.filter fun v => v.2.isOf kind)
    have hnames := map_sortWith_name (fun v : Fluent × PVariable => v.1.name)
      (vars.filter fun v => v.2.isOf kind)
    refine ⟨_, hperm, ?_⟩
    have hordered : m.orderedFluents kind = .ok ((sortWith (fun v w =>
        decide (v.1.name ≤ w.1.name)) (vars.filter fun v => v.2.isOf kind)).map
          fun v => (v.1.name, v.2)) := by
      refine except_bind_eq_ok.mpr ⟨table, htable, except_bind_eq_ok.mpr
        ⟨_, h.ordering_eq hdistinct hkind, ?_⟩⟩
      rw [← hnames]
      apply mapM_map_eq_ok
      intro v hv
      rw [(hfind v.1.name v.2).mpr ⟨v, hperm.mem_iff.mp hv, rfl, rfl⟩]
    exact Except.ok.inj (hfluents.symm.trans hordered)

end Model

def PVarDecl.groundedNames (decls : List ObjectsDecl) (v : PVarDecl) : List Datum :=
  (Model.combinations (v.types.map (objectsOf decls))).map fun args => .text (v.grounded args)

namespace Model

variable {m : Model} {t t₀ : Tables} {kind : FluentKind} {vars : List PVarDecl}
  {functions : List CpfDecl} {decls : List ObjectsDecl}

/-- The grounded fluents of a kind are those of its declarations, each once. -/
theorem exists_groundedFluents (hdecl : m.domain.Declares vars functions)
    (hdistinct : m.domain.allDeclared.Nodup) (hlists : m.Lists decls) (ht : t.BeginsObjects m)
    (hsizes : ∃ shapes, m.sizes t kind = .ok shapes) :
    ∃ ordered : List PVarDecl, ordered.Perm (vars.filter fun v => v.role.kind = kind) ∧
      m.groundedFluents t kind =
        .ok (ordered.map fun v => (v.fluent.name, v.groundedNames decls)) := by
  obtain ⟨shapes, hshapes⟩ := hsizes
  obtain ⟨fluents, hfluents, hshapes⟩ := except_bind_eq_ok.mp hshapes
  have hnodup : ((vars.map fun v => (v.fluent, v.pvariable)).map Prod.fst).Nodup := by
    rw [hdecl.allDeclared_eq] at hdistinct
    rwa [List.map_map]
  obtain ⟨ordered', hperm, rfl⟩ :=
    exists_perm_of_orderedFluents hdecl.lists.hasVariables hnodup hfluents
  simp only [List.filter_map, Function.comp_def, PVarDecl.isOf_pvariable] at hperm
  -- the fluents are those of declarations, in the order of the fluents
  obtain ⟨ordered, rfl, hordered⟩ :=
    (congrFun₂ (List.eq_map_comp_perm fun v : PVarDecl => (v.fluent, v.pvariable)) _ _).mpr hperm
  rw [List.map_map] at hfluents hshapes
  refine ⟨ordered, hordered, except_bind_eq_ok.mpr ⟨_, hfluents, ?_⟩⟩
  apply mapM_map_eq_ok
  intro v hv
  obtain ⟨shape, -, hshape⟩ := exists_ok_of_mapM hshapes (List.mem_map_of_mem hv)
  have hgroundings := PVarDecl.groundings_eq hlists ht hshape
  exact except_bind_eq_ok.mpr ⟨_, hgroundings, rfl⟩

def ListsOnce (m : Model) : Prop :=
  ∀ listed, m.listedObjects = .ok listed → ∀ type objects items,
    listed.find? type = some objects → objects.items = .ok items → items.Nodup

theorem ListsOnce.nodup_objectsOf (h : m.ListsOnce) (hlists : m.Lists decls) (type : String) :
    (objectsOf decls type).Nodup := by
  rw [objectsOf]
  cases hlast : lastWith? ObjectsDecl.type type decls with
  | none => exact List.nodup_nil
  | some d =>
    have hfind := find?_listed decls type
    rw [hlast] at hfind
    have hitems := h _ (listedObjects_eq hlists) _ _ _ hfind rfl
    exact hitems.of_map Datum.text

/-- The grounded fluents of several kinds are those of their declarations, each once. -/
theorem exists_groundedFluents_of_kinds (hdecl : m.domain.Declares vars functions)
    (hdistinct : m.domain.allDeclared.Nodup) (hlists : m.Lists decls) (ht : t.BeginsObjects m)
    {kinds : List FluentKind} (hsizes : ∀ kind ∈ kinds, ∃ shapes, m.sizes t kind = .ok shapes) :
    ∃ (ordered : List PVarDecl) (groups : List (List (String × List Datum))),
      ordered.Perm (kinds.flatMap fun kind => vars.filter fun v => v.role.kind = kind) ∧
      kinds.mapM (m.groundedFluents t) = .ok groups ∧
      groups.flatten = ordered.map fun v => (v.fluent.name, v.groundedNames decls) := by
  induction kinds with
  | nil => exact ⟨[], [], .refl [], rfl, rfl⟩
  | cons kind kinds ih =>
    obtain ⟨first, hfirst, hgrounded⟩ :=
      exists_groundedFluents hdecl hdistinct hlists ht (hsizes kind List.mem_cons_self)
    obtain ⟨rest, groups, hrest, hgroups, hflatten⟩ :=
      ih fun k hk => hsizes k (List.mem_cons_of_mem kind hk)
    refine ⟨first ++ rest, _ :: groups, hfirst.append hrest,
      mapM_eq_ok_iff.mpr (.cons hgrounded (mapM_eq_ok_iff.mp hgroups)), ?_⟩
    rw [List.flatten_cons, hflatten, List.map_append]

theorem nodup_declarations {kinds : List FluentKind} (hvars : vars.Nodup) (hkinds : kinds.Nodup) :
    (kinds.flatMap fun kind => vars.filter fun v => v.role.kind = kind).Nodup := by
  rw [List.nodup_flatMap]
  refine ⟨fun kind _ => hvars.filter _, hkinds.imp fun hne v hv hv' => hne ?_⟩
  have hkind := (List.mem_filter.mp hv).2
  have hkind' := (List.mem_filter.mp hv').2
  exact (of_decide_eq_true hkind).symm.trans (of_decide_eq_true hkind')

/-- The objects of a type are identifiers. -/
theorem isIdent_of_mem_objectsOf {line : Nat} {text : String}
    (h : ∀ d ∈ decls, ∃ ls, d.Written ls ∧ ls ⊆ (Scan.ofText line text).lexemes) {type o : String}
    (ho : o ∈ objectsOf decls type) : Lexeme.isIdent o.toList = true := by
  rw [objectsOf] at ho
  cases hlast : lastWith? ObjectsDecl.type type decls with
  | none =>
    rw [hlast] at ho
    cases ho
  | some d =>
    rw [hlast] at ho
    obtain ⟨ls, hwritten, hsub⟩ := h d (mem_of_lastWith? hlast)
    cases hwritten with
    | mk type' hobjects =>
      obtain ⟨l, hl, hsub'⟩ := hobjects.exists_subset ho
      cases hl
      refine Scan.isIdent_of_mem_lexemes (hsub ?_)
      exact List.mem_cons_of_mem _ (List.mem_cons_of_mem _ (mem_inBraces (hsub' (by simp))))

section Names

variable (hdecl : m.domain.Declares vars functions) (hdistinct : m.domain.allDeclared.Nodup)
  {line : Nat} {text : String}
  (hwritten : ∀ d ∈ decls, ∃ ls, d.Written ls ∧ ls ⊆ (Scan.ofText line text).lexemes)
include hdecl hdistinct hwritten

/-- The name of a grounding tells the declaration and the objects. -/
theorem eq_of_grounded_eq {v w : PVarDecl} {args args' : List String} (hv : v ∈ vars)
    (hargs : args ∈ combinations (v.types.map (objectsOf decls))) (hw : w ∈ vars)
    (hargs' : args' ∈ combinations (w.types.map (objectsOf decls)))
    (heq : v.grounded args = w.grounded args') : v = w ∧ args = args' := by
  have hobjects : ∀ (v : PVarDecl), ∀ args ∈ combinations (v.types.map (objectsOf decls)),
      args.length = v.fluent.arity ∧ ∀ a ∈ args, Lexeme.isIdent a.toList = true := by
    intro v args h
    obtain ⟨hlength, hmem⟩ := of_mem_combinations h
    refine ⟨hlength.trans (List.length_map _), fun a ha => ?_⟩
    obtain ⟨xs, hxs, hax⟩ := hmem a ha
    obtain ⟨type, -, rfl⟩ := List.mem_map.mp hxs
    exact isIdent_of_mem_objectsOf hwritten hax
  obtain ⟨hlength, hident⟩ := hobjects v args hargs
  obtain ⟨hlength', hident'⟩ := hobjects w args' hargs'
  obtain ⟨hfluent, hsame⟩ := PVarDecl.grounded_inj (hdecl.isIdent_variable v hv)
    (hdecl.isIdent_variable w hw) hident hident' hlength hlength' heq
  rw [hdecl.allDeclared_eq] at hdistinct
  exact ⟨List.inj_on_of_nodup_map hdistinct hv hw hfluent, hsame⟩

theorem nodup_flatMap_groundedNames (honce : m.ListsOnce) (hlists : m.Lists decls)
    {ordered : List PVarDecl} (hordered : ordered.Nodup) (hsub : ordered ⊆ vars) :
    (ordered.flatMap (PVarDecl.groundedNames decls)).Nodup := by
  rw [List.nodup_flatMap]
  constructor
  · -- one fluent: no object is listed twice, so no choice of objects is made twice
    intro v hv
    apply List.Nodup.map_on
    · intro args hargs args' hargs' heq
      exact (eq_of_grounded_eq hdecl hdistinct hwritten (hsub hv) hargs (hsub hv) hargs'
        (Datum.text.inj heq)).2
    · apply nodup_combinations
      intro xs hxs
      obtain ⟨type, -, rfl⟩ := List.mem_map.mp hxs
      exact honce.nodup_objectsOf hlists type
  · -- two fluents: the functor and the number of objects tell them apart
    apply hordered.pairwise_of_forall_ne
    intro v hv w hw hne name hname hname'
    obtain ⟨args, hargs, rfl⟩ := List.mem_map.mp hname
    obtain ⟨args', hargs', heq⟩ := List.mem_map.mp hname'
    exact hne (eq_of_grounded_eq hdecl hdistinct hwritten (hsub hv) hargs (hsub hw) hargs'
      (Datum.text.inj heq.symm)).1

end Names

/-- **All names of grounded fluents are different.**  Take a model that was read from a text,
    declares no fluent twice and lists no object twice for a type, and build it.  Then
    the groundings of all fluents but the observations are known, no name stands twice among
    them, and they are the names of the declared fluents with the objects that are listed for
    the types of their parameters.  Such a name tells which declared fluent it belongs to and
    with which objects. -/
theorem names_of_build {line : Nat} {text : String}
    (h : (Reading.ofText line text).verdict = .model m) (hdistinct : m.domain.allDeclared.Nodup)
    (honce : m.ListsOnce) (hbuild : m.build t₀ = .ok () t) :
    ∃ vars functions decls groups, m.domain.Declares vars functions ∧ m.Lists decls ∧
      groupKinds.mapM (m.groundedFluents t) = .ok groups ∧
      (groups.flatten.flatMap Prod.snd).Nodup ∧
      (∀ name, name ∈ groups.flatten.flatMap Prod.snd ↔
        ∃ v ∈ vars, v.role.kind ≠ .observation ∧
          ∃ args ∈ combinations (v.types.map (objectsOf decls)), .text (v.grounded args) = name) ∧
      ∀ v ∈ vars, ∀ args ∈ combinations (v.types.map (objectsOf decls)),
        ∀ w ∈ vars, ∀ args' ∈ combinations (w.types.map (objectsOf decls)),
          v.grounded args = w.grounded args' → v = w ∧ args = args' := by
  obtain ⟨hobjects, hsizes⟩ := shaped_of_build hbuild
  obtain ⟨vars, functions, hdecl⟩ := Domain.declares_of_verdict h
  -- names are told apart by how they are spelled, so the declarations come with their lexemes
  obtain ⟨decls, hlists, hwritten⟩ : ∃ decls, m.Lists decls ∧
      ∀ d ∈ decls, ∃ ls, d.Written ls ∧ ls ⊆ (Scan.ofText line text).lexemes := by
    obtain ⟨table, hover, -⟩ := hobjects
    obtain ⟨listed, -, hlisted, -⟩ := objectsOver_eq_ok.mp hover
    exact exists_listing_of_verdict h hlisted
  obtain ⟨ordered, groups, hperm, hgroups, hflatten⟩ := exists_groundedFluents_of_kinds hdecl
    hdistinct hlists (.inr ⟨_, List.prefix_refl _, hobjects⟩) hsizes
  have hnames : groups.flatten.flatMap Prod.snd =
      ordered.flatMap (PVarDecl.groundedNames decls) := by
    rw [hflatten, List.flatMap_map]
  have hmem : ∀ v, v ∈ ordered ↔ v ∈ vars ∧ v.role.kind ≠ .observation := by
    intro v
    rw [hperm.mem_iff, List.mem_flatMap, ← mem_groupKinds_iff]
    simp only [List.mem_filter, decide_eq_true_eq]
    constructor
    · rintro ⟨_, hkind, hv, rfl⟩
      exact ⟨hv, hkind⟩
    · rintro ⟨hv, hkind⟩
      exact ⟨_, hkind, hv, rfl⟩
  refine ⟨vars, functions, decls, groups, hdecl, hlists, hgroups, ?_, ?_, ?_⟩
  · have hvars : (vars.map PVarDecl.fluent).Nodup := hdecl.allDeclared_eq ▸ hdistinct
    rw [hnames]
    apply nodup_flatMap_groundedNames hdecl hdistinct hwritten honce hlists
    · exact hperm.nodup_iff.mpr (nodup_declarations (hvars.of_map _) (by decide))
    · exact fun v hv => ((hmem v).mp hv).1
  · intro name
    rw [hnames, List.mem_flatMap]
    simp only [hmem, PVarDecl.groundedNames, List.mem_map, and_assoc]
  · intro v hv args hargs w hw args' hargs' heq
    exact eq_of_grounded_eq hdecl hdistinct hwritten hv hargs hw hargs' heq

theorem listsOnce_of_lists (hlists : m.Lists decls) (h : ∀ d ∈ decls, d.objects.Nodup) :
    m.ListsOnce := by
  intro listed hlisted type objects items hfind hitems
  cases (listedObjects_eq hlists).symm.trans hlisted
  rw [Table.find?_ofList, Option.map_eq_some_iff] at hfind
  obtain ⟨entry, hentry, rfl⟩ := hfind
  have hmem := List.mem_reverse.mp (List.mem_of_find?_eq_some hentry)
  obtain ⟨d, hd, rfl⟩ := List.mem_map.mp hmem
  cases hitems
  exact (h d hd).map fun _ _ => Datum.text.inj

/-- The groundings of the fluents of a grid. -/
theorem names_of_gridText :
    ∃ m t groups, (Reading.ofText 1 gridText).verdict = .model m ∧ m.build {} = .ok () t ∧
      groupKinds.mapM (m.groundedFluents t) = .ok groups ∧
      (groups.flatten.flatMap Prod.snd).Nodup := by
  have hread : ((Reading.ofText 1 gridText).verdict.model?.bind fun m =>
      (Build.tables? m.build {}).map fun t =>
        (m.domain.allDeclared, m.nonFluents.find? "objects")) =
      some ([⟨"lit", 0⟩, ⟨"go", 0⟩, ⟨"at", 2⟩], some (.list
        ([⟨"robot", ["r1", "r2"]⟩, ⟨"cell", ["c1", "c2", "c3"]⟩].map ObjectsDecl.datum))) := by
    rw [gridText, Reading.ofText_eq_ofScan 1 rfl]
    decide +kernel
  obtain ⟨m, hmodel, hview⟩ := Option.bind_eq_some_iff.mp hread
  obtain ⟨t, ht, hview⟩ := Option.map_eq_some_iff.mp hview
  obtain ⟨hall, hlists⟩ := Prod.mk.inj hview
  have hverdict := Verdict.eq_model_of_model? hmodel
  have hbuild := Build.eq_ok_of_tables? ht
  have hdistinct : m.domain.allDeclared.Nodup := by
    rw [hall]
    decide
  obtain ⟨_, _, _, groups, -, -, hgroups, hnodup, -⟩ :=
    names_of_build hverdict hdistinct (listsOnce_of_lists hlists (by decide)) hbuild
  exact ⟨m, t, groups, hverdict, hbuild, hgroups, hnodup⟩

end Model

end Rddl
