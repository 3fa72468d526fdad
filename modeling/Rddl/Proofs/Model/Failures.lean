/-
  Rddl/Proofs/Model/Failures.lean
  ===============================
  **Why the tables of a model cannot be built.**

  To build the object table the declared object types are looked up among the types with
  listed objects, and to build the fluent table the parameter types of fluents are looked up
  among the object types.  Both fail for the first type that is not found, and for nothing
  else (`Model.exists_tables_iff`).

  `LooksUp` says so of one computation and `Build.LooksUp` of a build step; the types that a
  sequence of steps looks up are those of the single steps in order.
-/
import Rddl.Proofs.Blocks
import Rddl.Proofs.Datum.Equality
import Rddl.Proofs.Domain.Variables

namespace Rddl

variable {α β γ : Type} {known types types' : List String}

/-! ### Looking up types -/

def firstUnknown? (known types : List String) : Option String := types.find? (· ∉ known)

theorem firstUnknown?_eq_none :
    firstUnknown? known types = none ↔ ∀ type ∈ types, type ∈ known := by
  simp [firstUnknown?]

theorem firstUnknown?_append :
    firstUnknown? known (types ++ types') =
      (firstUnknown? known types).or (firstUnknown? known types') :=
  List.find?_append

theorem firstUnknown?_singleton {type : String} (h : type ∉ known) :
    firstUnknown? known [type] = some type := by
  simp [firstUnknown?, h]

/-- A computation fails for the first of some types that is not known, and gives a result if
    all of them are known. -/
def LooksUp (known types : List String) (x : Except Fault α) : Prop :=
  (firstUnknown? known types = none ∧ ∃ a, x = .ok a) ∨
    ∃ type, firstUnknown? known types = some type ∧ x = .error (.missingKey type)

namespace LooksUp

variable {x : Except Fault α} {f : α → Except Fault β}

theorem ok (a : α) : LooksUp known [] (.ok a : Except Fault α) := .inl ⟨rfl, a, rfl⟩

theorem of_mem {type : String} {a : α} (h : type ∈ known) (hx : x = .ok a) :
    LooksUp known [type] x :=
  .inl ⟨firstUnknown?_eq_none.mpr (by simpa using h), a, hx⟩

theorem of_notMem {type : String} (h : type ∉ known) (hx : x = .error (.missingKey type)) :
    LooksUp known [type] x :=
  .inr ⟨type, firstUnknown?_singleton h, hx⟩

theorem bind (hx : LooksUp known types x) (hf : ∀ a, LooksUp known types' (f a)) :
    LooksUp known (types ++ types') (x >>= f) := by
  rcases hx with ⟨hnone, a, rfl⟩ | ⟨type, hsome, rfl⟩
  · rw [LooksUp, firstUnknown?_append, hnone]
    exact hf a
  · exact .inr ⟨type, by rw [firstUnknown?_append, hsome]; rfl, rfl⟩

theorem map (hx : LooksUp known types x) (g : α → β) :
    LooksUp known types (x >>= fun a => .ok (g a)) := by
  have h := hx.bind fun a => ok (g a)
  rwa [List.append_nil] at h

theorem mapM {xs : List α} {typesOf : α → List String}
    (h : ∀ x ∈ xs, LooksUp known (typesOf x) (f x)) :
    LooksUp known (xs.flatMap typesOf) (xs.mapM f) := by
  induction xs with
  | nil => exact ok []
  | cons x xs ih =>
    rw [List.mapM_cons, List.flatMap_cons]
    have hrest := ih fun y hy => h y (List.mem_cons_of_mem x hy)
    exact (h x List.mem_cons_self).bind fun y => hrest.map (y :: ·)

end LooksUp

namespace Build

variable {I : Tables → Prop} {x : Build α} {f : α → Build β}

/-- From tables with a property a step fails for the first of some types that is not known;
    if all of them are known it comes to its end, and the property still holds. -/
def LooksUp (I : Tables → Prop) (known types : List String) (x : Build α) : Prop :=
  ∀ t, I t → (firstUnknown? known types = none ∧ ∃ a t', x t = .ok a t' ∧ I t') ∨
    ∃ type t', firstUnknown? known types = some type ∧ x t = .error (.missingKey type) t'

namespace LooksUp

theorem pure (a : α) : LooksUp I known [] (Pure.pure a) :=
  fun t ht => .inl ⟨rfl, a, t, rfl, ht⟩

theorem modify {g : Tables → Tables} (h : ∀ t, I t → I (g t)) : LooksUp I known [] (modify g) :=
  fun t ht => .inl ⟨rfl, (), g t, rfl, h t ht⟩

theorem lift {r : Except Fault α} (h : Rddl.LooksUp known types r) :
    LooksUp I known types (Build.lift r) := by
  intro t ht
  rcases h with ⟨hnone, a, rfl⟩ | ⟨type, hsome, rfl⟩
  · exact .inl ⟨hnone, a, t, rfl, ht⟩
  · exact .inr ⟨type, t, hsome, rfl⟩

theorem bind (hx : LooksUp I known types x) (hf : ∀ a, LooksUp I known types' (f a)) :
    LooksUp I known (types ++ types') (x >>= f) := by
  intro t ht
  rw [firstUnknown?_append]
  rcases hx t ht with ⟨hnone, a, t', hrun, ht'⟩ | ⟨type, t', hsome, hrun⟩
  · rw [hnone, bind_of_ok hrun]
    exact hf a t' ht'
  · exact .inr ⟨type, t', by rw [hsome]; rfl, bind_of_error hrun⟩

theorem before (hx : LooksUp I known types x) (hf : ∀ a, LooksUp I known [] (f a)) :
    LooksUp I known types (x >>= f) := by
  have h := hx.bind hf
  rwa [List.append_nil] at h

theorem after (hx : LooksUp I known [] x) (hf : ∀ a, LooksUp I known types (f a)) :
    LooksUp I known types (x >>= f) :=
  hx.bind hf

/-- What is there is taken without looking up anything. -/
theorem lift_bind {r : Except Fault α} {a : α} (hr : r = .ok a)
    (hf : LooksUp I known types (f a)) : LooksUp I known types (Build.lift r >>= f) := by
  subst hr
  exact fun t ht => hf t ht

theorem get_bind {f : Tables → Build β} (hf : ∀ u, I u → LooksUp I known types (f u)) :
    LooksUp I known types (get >>= f) :=
  fun t ht => hf t ht t ht

/-- A loop looks up the types of its steps in order. -/
theorem forM {xs : List γ} {step : γ → Build Unit} {typesOf : γ → List String}
    (h : ∀ x ∈ xs, LooksUp I known (typesOf x) (step x)) :
    LooksUp I known (xs.flatMap typesOf) (xs.forM step) := by
  induction xs with
  | nil => exact pure ()
  | cons x xs ih =>
    rw [List.flatMap_cons]
    exact (h x List.mem_cons_self).bind fun _ => ih fun y hy => h y (List.mem_cons_of_mem x hy)

/-- A step that looks up types comes to its end if all are known, and else fails for the first
    that is not. -/
theorem ends {x : Build Unit} (h : LooksUp I known types x) {t : Tables} (ht : I t) :
    ((∃ t', x t = .ok () t') ↔ ∀ type ∈ types, type ∈ known) ∧
      ∀ type, firstUnknown? known types = some type → ∃ t', x t = .error (.missingKey type) t' := by
  rw [← firstUnknown?_eq_none]
  rcases h t ht with ⟨hnone, _, t', hrun, -⟩ | ⟨type, t', hsome, hrun⟩
  · refine ⟨⟨fun _ => hnone, fun _ => ⟨t', hrun⟩⟩, fun type hsome => ?_⟩
    cases hnone.symm.trans hsome
  · refine ⟨⟨?_, fun hnone => by cases hnone.symm.trans hsome⟩, fun type' hsome' => ?_⟩
    · rintro ⟨u, hok⟩
      cases hok.symm.trans hrun
    · cases hsome.symm.trans hsome'
      exact ⟨t', hrun⟩

end LooksUp

end Build

theorem Tables.objectsOf_text {t : Tables} {table : Table Key ObjectEntry}
    (h : t.objects? = some table) (type : String) :
    t.objectsOf (.text type) =
      ((table.find? ⟨.text type⟩).map Except.ok).getD (.error (.missingKey type)) := by
  have hkey : (Datum.text type).key = .ok ⟨.text type⟩ := rfl
  cases hfind : table.find? ⟨.text type⟩ <;>
    simp [objectsOf, objects, required, h, hkey, hfind, Datum.displayed_text, bind, Except.bind]

/-! ### Models with types, objects and variables -/

def objectTypes (decls : List (String × Datum)) : List String :=
  (decls.filter fun d => d.2.isText "object").map Prod.fst

theorem flatMap_objectTypes (decls : List (String × Datum)) :
    (decls.flatMap fun d => objectTypes [d]) = objectTypes decls := by
  induction decls with
  | nil => rfl
  | cons d decls ih =>
    rw [List.flatMap_cons, ih]
    simp only [objectTypes, ← List.map_append, ← List.filter_append, List.singleton_append]

def TypeDecl.entry (d : TypeDecl) : String × Datum :=
  (d.name,
    match d.body with
    | .objects => .text Keyword.objectWord.spelling
    | .enumeration values => Datum.texts values)

namespace Model

/-- The types, the objects and the variables of a model are those of some declarations. -/
structure IsMadeOf (m : Model) (decls : List (String × Datum)) (listed : List ObjectsDecl)
    (vars : List PlainVariable) : Prop where
  types : m.domain.types = .list (decls.map fun d => .tuple [.text d.1, d.2])
  objects : m.Lists listed
  pvariables : m.domain.pvariables = .list (vars.map fun v => v.pvariable.datum)

/-- **A model that was read from a text and lists objects is made of what is declared there.** -/
theorem isMadeOf_of_verdict {line : Nat} {text : String} {m : Model} {table : Table Key Datum}
    (h : (Reading.ofText line text).verdict = .model m) (hlisted : m.listedObjects = .ok table) :
    ∃ (b : DomainBlock) (listed : List ObjectsDecl), b.Gives m.domain ∧
      m.IsMadeOf (b.types.map TypeDecl.entry) listed (b.vars.map PVarDecl.plain) := by
  obtain ⟨doc, ls, b, n, i, -, -, -, -, -, -, hgives⟩ := exists_blocks_of_verdict h
  obtain ⟨listed, hlists⟩ := lists_of_verdict h hlisted
  refine ⟨b, listed, hgives, ?_, hlists, ?_⟩
  · rw [hgives.types, List.map_map]
    rfl
  · rw [hgives.declares.pvariables, List.map_map]
    rfl

variable {m : Model} {t : Tables} {decls : List (String × Datum)} {listed : List ObjectsDecl}
  {vars : List PlainVariable}

/-! ### The object table -/

theorem objectEntry_looksUp (listed : List ObjectsDecl) (type : String) :
    LooksUp (listed.map ObjectsDecl.type) [type]
      (objectEntry (Table.ofList (listed.map ObjectsDecl.entry)) ⟨.text type⟩) := by
  cases hlast : lastWith? ObjectsDecl.type type listed with
  -- the failure names the type
  | none =>
    have hnone := lastWith?_eq_none.mp hlast
    refine .of_notMem (by simpa using hnone) ?_
    rw [objectEntry, find?_listed, hlast]
    simp [Datum.displayed_text, bind, Except.bind]
  | some d =>
    have hmem : type ∈ listed.map ObjectsDecl.type :=
      List.mem_map.mpr ⟨d, mem_of_lastWith? hlast, key_of_lastWith? hlast⟩
    -- objects are texts, which can be keys, so that they can be numbered
    have hkeys : (d.objects.map Datum.text).mapM Datum.key =
        .ok (d.objects.map fun object => ⟨.text object⟩) := mapM_map_eq_ok fun _ _ => rfl
    have hindex : (Datum.texts d.objects).positions =
        .ok (Table.ofList (d.objects.map fun object => (⟨.text object⟩ : Key)).zipIdx) :=
      except_bind_eq_ok.mpr ⟨_, rfl, except_bind_eq_ok.mpr ⟨_, hkeys, rfl⟩⟩
    refine .of_mem hmem (objectEntry_eq_ok (e := ⟨_, _, Datum.texts d.objects⟩).mpr
      ⟨?_, hindex, rfl⟩)
    rw [find?_listed, hlast]
    rfl

theorem placeObjects_looksUp (listed : List ObjectsDecl) (d : String × Datum) :
    Build.LooksUp (fun _ => True) (listed.map ObjectsDecl.type) (objectTypes [d])
      (placeObjects (Table.ofList (listed.map ObjectsDecl.entry)) (.tuple [.text d.1, d.2])) := by
  refine .lift_bind (a := (.text d.1, d.2)) rfl ?_
  by_cases hbody : d.2.isText "object" = true
  · have htypes : objectTypes [d] = [d.1] := by simp [objectTypes, hbody]
    rw [htypes]
    simp only [hbody, if_true]
    refine .lift_bind (a := ⟨.text d.1⟩) rfl ?_
    exact .before (.lift (objectEntry_looksUp listed d.1)) fun _ => .modify fun _ _ => trivial
  · have htypes : objectTypes [d] = [] := by simp [objectTypes, hbody]
    rw [htypes]
    simp only [hbody]
    exact .pure ()

/-- The object table looks up the declared object types among the types with listed objects. -/
theorem buildObjects_looksUp (h : m.IsMadeOf decls listed vars) :
    Build.LooksUp (fun _ => True) (listed.map ObjectsDecl.type) (objectTypes decls)
      m.buildObjects := by
  refine .lift_bind (listedObjects_eq h.objects) ?_
  refine .after (.modify fun _ _ => trivial) fun _ => ?_
  refine .lift_bind (a := decls.map fun d => .tuple [.text d.1, d.2]) (by rw [h.types]; rfl) ?_
  have hloop : Build.LooksUp _ _ (decls.flatMap fun d => objectTypes [d]) (decls.forM _) :=
    .forM fun d _ => placeObjects_looksUp listed d
  rw [flatMap_objectTypes] at hloop
  change Build.LooksUp _ _ _ (forM (decls.map fun d => Datum.tuple [.text d.1, d.2]) _)
  rw [List.forM_map]
  exact hloop

/-- The object table has an entry for every declared object type. -/
theorem keys_of_typeObjects? {table : Table Key Datum}
    {entries : List (Option (Key × ObjectEntry))}
    (h : (decls.map fun d => Datum.tuple [.text d.1, d.2]).mapM (typeObjects? table) =
      .ok entries) :
    entries.reduceOption.map Prod.fst = (objectTypes decls).map fun type => ⟨.text type⟩ := by
  rw [mapM_eq_ok_iff] at h
  induction decls generalizing entries with
  | nil =>
    cases h
    rfl
  | cons d decls ih =>
    obtain ⟨e?, entries, hd, hrest, rfl⟩ := List.forall₂_cons_left_iff.mp h
    obtain ⟨⟨type, body⟩, hpair, hd⟩ := except_bind_eq_ok.mp hd
    cases hpair
    by_cases hbody : d.2.isText "object" = true
    · -- a type of objects gives an entry under its own name
      simp only [hbody, if_true, except_bind_eq_ok] at hd
      obtain ⟨key, hkey, e, -, hd⟩ := hd
      cases hkey
      cases hd
      rw [List.reduceOption_cons_of_some, List.map_cons, ih hrest]
      simp [objectTypes, hbody]
    · simp only [hbody] at hd
      cases hd
      rw [List.reduceOption_cons_of_none, ih hrest]
      simp [objectTypes, hbody]

/-- In the object table a type is looked up among the declared object types. -/
theorem objectsOf_looksUp (h : m.IsMadeOf decls listed vars) (ht : t.HasObjects m m.typeDecls)
    (type : String) : LooksUp (objectTypes decls) [type] (t.objectsOf (.text type)) := by
  obtain ⟨table, hover, htable⟩ := ht
  obtain ⟨_, entries, -, hentries, rfl⟩ := objectsOver_eq_ok.mp hover
  have hdecls : m.typeDecls = decls.map fun d => .tuple [.text d.1, d.2] := by
    rw [typeDecls, h.types]
    rfl
  rw [hdecls] at hentries
  have hkeys := keys_of_typeObjects? hentries
  -- the keys of the table are the types of objects
  have hfound : ((Table.ofList entries.reduceOption).find? ⟨.text type⟩).isSome = true ↔
      type ∈ objectTypes decls := by
    rw [Table.find?_ofList, Option.isSome_map, List.find?_isSome]
    calc (∃ e ∈ entries.reduceOption.reverse, (e.1 == (⟨.text type⟩ : Key)) = true)
      _ ↔ ∃ key ∈ entries.reduceOption.map Prod.fst, (key == (⟨.text type⟩ : Key)) = true := by simp
      _ ↔ ∃ type' ∈ objectTypes decls, type' = type := by
        rw [hkeys]
        simp [Key.text_beq]
      _ ↔ type ∈ objectTypes decls := exists_eq_right
  have hrun := Tables.objectsOf_text htable type
  cases hfind : (Table.ofList entries.reduceOption).find? ⟨.text type⟩ with
  | some e =>
    rw [hfind] at hrun hfound
    exact .of_mem (hfound.mp rfl) hrun
  | none =>
    rw [hfind] at hrun hfound
    exact .of_notMem (fun hmem => by cases hfound.mpr hmem) hrun

/-! ### The fluent table -/

theorem shape_looksUp (h : m.IsMadeOf decls listed vars) (ht : t.HasObjects m m.typeDecls)
    (v : PlainVariable) : LooksUp (objectTypes decls) v.types (shape t v.pvariable) := by
  have hshape : shape t v.pvariable =
      v.types.mapM fun type => t.objectsOf (.text type) >>= fun e => .ok e.size := by
    rw [shape, v.paramTypes_pvariable]
    exact List.mapM_map
  have hlooksUp : LooksUp (objectTypes decls) (v.types.flatMap fun type => [type])
      (v.types.mapM _) :=
    .mapM fun type _ => (objectsOf_looksUp h ht type).map ObjectEntry.size
  rw [List.flatMap_singleton'] at hlooksUp
  rw [hshape]
  exact hlooksUp

section Ordered

variable {ordered : FluentKind → List PlainVariable}

theorem placeFluents_looksUp (h : m.IsMadeOf decls listed vars) {kind : FluentKind}
    (hordered : m.orderedFluents kind =
      .ok ((ordered kind).map fun v => (v.fluent.name, v.pvariable))) :
    Build.LooksUp (fun t => t.HasObjects m m.typeDecls) (objectTypes decls)
      ((ordered kind).flatMap PlainVariable.types) (m.placeFluents kind) := by
  refine .lift_bind hordered (.get_bind fun u hu => ?_)
  refine .before (.lift ?_) fun sizes => .modify fun t ht => ht
  rw [sizes, hordered]
  change LooksUp _ _ (((ordered kind).map fun v => (v.fluent.name, v.pvariable)).mapM fun fluent =>
    shape u fluent.2)
  rw [List.mapM_map]
  exact .mapM fun v _ => shape_looksUp h hu v

/-- The fluent table looks up the parameter types of fluents among the object types. -/
theorem buildFluents_looksUp (h : m.IsMadeOf decls listed vars)
    (hordered : ∀ kind, m.orderedFluents kind =
      .ok ((ordered kind).map fun v => (v.fluent.name, v.pvariable))) :
    Build.LooksUp (fun t => t.HasObjects m m.typeDecls) (objectTypes decls)
      ((groupKinds.flatMap ordered).flatMap PlainVariable.types) m.buildFluents := by
  rw [buildFluents_eq, List.flatMap_assoc]
  refine .after (.modify fun t ht => ht) fun _ => ?_
  exact .forM fun kind _ => placeFluents_looksUp h (hordered kind)

end Ordered

/-- **Why tables cannot be built.**  The object table is built exactly if objects are listed
    for every declared object type; else the first type without any is missing.  After that
    the fluent table is built exactly if the parameter types of all fluents that count are
    object types; else the first that is none is missing, non-fluents coming first, then state,
    action and intermediate fluents, each kind in its canonical order.  The instance does not
    matter. -/
theorem exists_tables_iff (h : m.IsMadeOf decls listed vars)
    (hlevels : ∀ v ∈ vars, v.isOf .intermediate = true → ∃ n, v.level = .integer n) :
    ∃ ordered : FluentKind → List PlainVariable,
      (∀ kind, m.domain.ordering kind = .ok ((ordered kind).map fun v => v.fluent.name) ∧
        ∀ v, v ∈ ordered kind ↔ v.IsLast vars kind) ∧
      (∀ t₀,
        ((∃ t, m.buildObjects t₀ = .ok () t) ↔
          ∀ type ∈ objectTypes decls, type ∈ listed.map ObjectsDecl.type) ∧
        (∀ type, firstUnknown? (listed.map ObjectsDecl.type) (objectTypes decls) = some type →
          ∃ t, m.buildObjects t₀ = .error (.missingKey type) t) ∧
        ∀ t u, m.buildObjects t₀ = .ok () t → u.objects? = t.objects? →
          ((∃ u', m.buildFluents u = .ok () u') ↔
            ∀ kind ∈ groupKinds, ∀ v : PlainVariable, v.IsLast vars kind →
              ∀ type ∈ v.types, type ∈ objectTypes decls) ∧
          ∀ type, firstUnknown? (objectTypes decls)
              ((groupKinds.flatMap ordered).flatMap PlainVariable.types) = some type →
            ∃ u', m.buildFluents u = .error (.missingKey type) u') ∧
      ∀ problem, ({ m with problem } : Model).buildObjects = m.buildObjects ∧
        ({ m with problem } : Model).buildFluents = m.buildFluents := by
  choose ordered hordering _ hlast using Domain.exists_ordered h.pvariables hlevels
  have hordered := fun kind =>
    orderedFluents_eq h.pvariables (hordering kind) fun v hv => (hlast kind v).mp hv
  refine ⟨ordered, fun kind => ⟨hordering kind, hlast kind⟩, fun t₀ => ?_, fun _ => ⟨rfl, rfl⟩⟩
  obtain ⟨hiff, hfirst⟩ := (buildObjects_looksUp h).ends (t := t₀) trivial
  refine ⟨hiff, hfirst, ?_⟩
  intro t u hobjects hsame
  -- of the tables only the objects matter for the fluents
  have hu : u.HasObjects m m.typeDecls := by
    rcases buildObjects_ensures t₀.objects? t₀.fluents? t₀ ⟨rfl, rfl⟩ with
      ⟨_, t', hrun, -, table, hover, htable⟩ | ⟨cause, t', hrun, -⟩
    · cases hobjects.symm.trans hrun
      exact ⟨table, hover, hsame.trans htable⟩
    · cases hobjects.symm.trans hrun
  obtain ⟨hiff, hfirst⟩ := (buildFluents_looksUp h hordered).ends hu
  refine ⟨hiff.trans ?_, hfirst⟩
  -- the types of all variables that count, kind by kind
  simp only [List.mem_flatMap, hlast, forall_exists_index, and_imp]
  exact ⟨fun hall kind hkind v hv type => hall type v kind hkind hv,
    fun hall type v kind hkind hv => hall kind hkind v hv type⟩

def paintedText : String := "domain d \x7b
  types \x7b cell : object; color : \x7b@red\x7d; \x7d;
  pvariables \x7b
    paint(cell, color) : \x7b action-fluent, bool, default = false \x7d;
    wet(cell) : \x7b interm-fluent, bool, level = 1 \x7d;
    near(cell, cell) : \x7b non-fluent, bool, default = false \x7d;
  \x7d;
  cpfs \x7b wet(?c) = true; \x7d;
  reward = 1;
\x7d
non-fluents n \x7b objects \x7b cell : \x7bc1, c2\x7d; \x7d; \x7d
instance i \x7b objects \x7b color : \x7bc3\x7d; \x7d; \x7d"

def paintedTypes : List (String × Datum) :=
  [("cell", .text "object"), ("color", Datum.texts ["@red"])]

def paintedVariables : List PlainVariable :=
  [{ name := "paint", params := some ["cell", "color"], kind := .text "action-fluent",
     range := .text "bool", default := .truth false, level := .absent },
   { name := "wet", params := some ["cell"], kind := .text "interm-fluent",
     range := .text "bool", default := .absent, level := .integer 1 },
   { name := "near", params := some ["cell", "cell"], kind := .text "non-fluent",
     range := .text "bool", default := .truth false, level := .absent }]

/-- Colors are no objects, and what the instance lists for them does not help. -/
theorem tables_of_paintedText :
    ∃ m t u, (Reading.ofText 1 paintedText).verdict = .model m ∧ m.buildObjects {} = .ok () t ∧
      m.buildFluents t = .error (.missingKey "color") u := by
  have hread : ((Reading.ofText 1 paintedText).verdict.model?.map fun m =>
      (m.domain.types, m.domain.pvariables, m.nonFluents.find? "objects")) =
      some (.list (paintedTypes.map fun d => .tuple [.text d.1, d.2]),
        .list (paintedVariables.map fun v => v.pvariable.datum),
        some (.list [ObjectsDecl.datum ⟨"cell", ["c1", "c2"]⟩])) := by
    rw [paintedText, Reading.ofText_eq_ofScan 1 rfl]
    decide +kernel
  obtain ⟨m, hmodel, hview⟩ := Option.map_eq_some_iff.mp hread
  simp only [Prod.mk.injEq] at hview
  have hmade : m.IsMadeOf paintedTypes [⟨"cell", ["c1", "c2"]⟩] paintedVariables :=
    ⟨hview.1, hview.2.2, hview.2.1⟩
  have hknown : objectTypes paintedTypes = ["cell"] := rfl
  have hlevels : ∀ v ∈ paintedVariables, v.isOf .intermediate = true →
      ∃ n, v.level = .integer n := by
    simp [paintedVariables, PlainVariable.isOf, Datum.isText, FluentKind.spelling]
  obtain ⟨ordered, hordered, htables, -⟩ := exists_tables_iff hmade hlevels
  rw [hknown] at htables
  obtain ⟨hiff, -, hfluents⟩ := htables {}
  obtain ⟨t, ht⟩ := hiff.mpr (by simp)
  obtain ⟨-, hfirst⟩ := hfluents t t ht rfl
  suffices hcolor : firstUnknown? ["cell"]
      ((groupKinds.flatMap ordered).flatMap PlainVariable.types) = some "color" by
    obtain ⟨u, hu⟩ := hfirst "color" hcolor
    exact ⟨m, t, u, Verdict.eq_model_of_model? hmodel, ht, hu⟩
  -- colors are looked up for `paint`, and besides them there are only cells
  have hpaint : paintedVariables[0] ∈ ordered .action := ((hordered .action).2 _).mpr rfl
  have htypes : ∀ v ∈ paintedVariables, ∀ type ∈ v.types, type = "cell" ∨ type = "color" := by
    decide
  cases hsome : firstUnknown? ["cell"]
      ((groupKinds.flatMap ordered).flatMap PlainVariable.types) with
  | none =>
    have hmem := firstUnknown?_eq_none.mp hsome "color"
      (List.mem_flatMap.mpr ⟨_, List.mem_flatMap.mpr ⟨.action, by decide, hpaint⟩, by decide⟩)
    simp at hmem
  | some type =>
    have hunknown := List.find?_some hsome
    obtain ⟨v, hv, htype⟩ := List.mem_flatMap.mp (List.mem_of_find?_eq_some hsome)
    obtain ⟨kind, -, hv⟩ := List.mem_flatMap.mp hv
    rcases htypes v ((hordered kind).2 v |>.mp hv).mem.1 type htype with rfl | rfl
    · simp at hunknown
    · rfl

end Model

end Rddl
