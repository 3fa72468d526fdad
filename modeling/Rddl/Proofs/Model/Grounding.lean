/-
  Rddl/Proofs/Model/Grounding.lean
  ================================
  **Groundings in row-major order.**

  The shapes of fluents are looked up type by type, their groundings come from all
  combinations of objects.  For a model that was read from a text and could be built
  the two describe one layout (`groundings_of_build`): a fluent has as many groundings
  as its shape has places, and the arguments of each are the objects that stand at the
  digits of its position, in the mixed radix that the shape gives.
-/
import Mathlib.Algebra.BigOperators.Group.List.Lemmas
import Mathlib.Data.List.GetD
import Rddl.Proofs.Domain.Declared
import Rddl.Proofs.Model.Builds
import Rddl.Proofs.Outcome

namespace Rddl

/-! ### Combinations -/

section Combinations

variable {α β : Type}

theorem length_combinations (lists : List (List α)) :
    (Model.combinations lists).length = (lists.map List.length).prod := by
  induction lists with
  | nil => rfl
  | cons xs rest ih => simp [Model.combinations, List.length_flatMap, ih]

theorem combinations_map (f : α → β) (lists : List (List α)) :
    Model.combinations (lists.map (List.map f)) = (Model.combinations lists).map (List.map f) := by
  induction lists with
  | nil => rfl
  | cons xs rest ih =>
    simp [Model.combinations, ih, List.flatMap_map, List.map_flatMap, Function.comp_def]

theorem getElem?_flatMap_of_length {f : α → List β} {p : Nat} (hf : ∀ x, (f x).length = p)
    (hp : 0 < p) (xs : List α) (j : Nat) :
    (xs.flatMap f)[j]? = xs[j / p]?.bind fun x => (f x)[j % p]? := by
  induction xs generalizing j with
  | nil => simp
  | cons x xs ih =>
    rw [List.flatMap_cons]
    by_cases hj : j < p
    · rw [List.getElem?_append_left (by rw [hf]; exact hj), Nat.div_eq_of_lt hj,
        Nat.mod_eq_of_lt hj]
      rfl
    · obtain ⟨k, rfl⟩ := Nat.exists_eq_add_of_le (Nat.le_of_not_lt hj)
      rw [List.getElem?_append_right (by rw [hf]; exact Nat.le_add_right p k), hf,
        Nat.add_sub_cancel_left, ih, Nat.add_div_left k hp, Nat.add_mod_left,
        List.getElem?_cons_succ]

/-- The digit of a number at a place, in the mixed radix of a shape; the last place changes
    fastest. -/
def digit (shape : List Nat) (r j : Nat) : Nat := j / (shape.drop (r + 1)).prod % shape.getD r 0

theorem mod_div_mod_of_dvd {j p q n : Nat} (h : n * q ∣ p) : j % p / q % n = j / q % n := by
  obtain ⟨e, rfl⟩ := h
  rw [Nat.mul_comm n q, Nat.mul_assoc, Nat.mod_mul_right_div_self, Nat.mod_mul_right_mod]

theorem digit_mod_prod {shape : List Nat} {r : Nat} (hr : r < shape.length) (j : Nat) :
    digit shape r (j % shape.prod) = digit shape r j := by
  have hdvd : shape.getD r 0 * (shape.drop (r + 1)).prod ∣ shape.prod := by
    rw [List.getD_eq_getElem _ _ hr, ← List.prod_cons, ← List.drop_eq_getElem_cons]
    exact (List.drop_sublist r shape).prod_dvd_prod
  exact mod_div_mod_of_dvd hdvd

/-- The combination at a position takes from each list the item at the digit that the
    position has there. -/
theorem getElem?_combinations {lists : List (List α)} {j : Nat}
    (hj : j < (lists.map List.length).prod) :
    ∃ taken, (Model.combinations lists)[j]? = some taken ∧ taken.length = lists.length ∧
      ∀ r xs, lists[r]? = some xs → ∃ x, taken[r]? = some x ∧
        xs[digit (lists.map List.length) r j]? = some x := by
  induction lists generalizing j with
  | nil =>
    rw [List.map_nil, List.prod_nil, Nat.lt_one_iff] at hj
    subst hj
    exact ⟨[], rfl, rfl, fun r xs h => by simp at h⟩
  | cons xs rest ih =>
    have hlength : ∀ x : α, ((Model.combinations rest).map (x :: ·)).length =
        (rest.map List.length).prod := fun x => by rw [List.length_map, length_combinations]
    rw [List.map_cons, List.prod_cons] at hj
    have hpos : 0 < (rest.map List.length).prod := Nat.pos_of_lt_mul_left hj
    have hfirst : j / (rest.map List.length).prod < xs.length := by
      rw [Nat.mul_comm] at hj
      exact Nat.div_lt_of_lt_mul hj
    -- the first list gives the leading digit, and the rest is left for the other lists
    obtain ⟨taken, htaken, htakenLength, hdigits⟩ := ih (Nat.mod_lt j hpos)
    refine ⟨xs[j / (rest.map List.length).prod] :: taken, ?_, ?_, ?_⟩
    · rw [Model.combinations, getElem?_flatMap_of_length hlength hpos,
        List.getElem?_eq_getElem hfirst, Option.bind_some, List.getElem?_map, htaken]
      rfl
    · rw [List.length_cons, List.length_cons, htakenLength]
    · intro r ys hys
      cases r with
      -- the leading digit
      | zero =>
        cases hys
        refine ⟨_, rfl, ?_⟩
        have hdigit : digit ((xs :: rest).map List.length) 0 j = j / (rest.map List.length).prod :=
          Nat.mod_eq_of_lt hfirst
        rw [hdigit]
        exact List.getElem?_eq_getElem hfirst
      -- the other digits are those of the remainder
      | succ r =>
        rw [List.getElem?_cons_succ] at hys
        obtain ⟨x, hx, hdigit⟩ := hdigits r ys hys
        refine ⟨x, hx, ?_⟩
        obtain ⟨hr, -⟩ := List.getElem?_eq_some_iff.mp hys
        rw [digit_mod_prod (by rw [List.length_map]; exact hr)] at hdigit
        exact hdigit

end Combinations

/-! ### Listed objects -/

/-- The objects of a type; of several lists for one type the last counts. -/
def objectsOf (decls : List ObjectsDecl) (type : String) : List String :=
  ((lastWith? ObjectsDecl.type type decls).map ObjectsDecl.objects).getD []

/-- The non-fluents of a model hold the data of declarations of objects. -/
def Model.Lists (m : Model) (decls : List ObjectsDecl) : Prop :=
  m.nonFluents.find? "objects" = some (.list (decls.map ObjectsDecl.datum))

theorem Key.text_beq (a b : String) : ((⟨.text a⟩ : Key) == ⟨.text b⟩) = (a == b) := by
  simp [BEq.beq, Datum.agrees]

def ObjectsDecl.entry (d : ObjectsDecl) : Key × Datum := (⟨.text d.type⟩, Datum.texts d.objects)

namespace Model

variable {m : Model} {t : Tables} {decls : List ObjectsDecl}

theorem listedObjects_eq (h : m.Lists decls) :
    m.listedObjects = .ok (Table.ofList (decls.map ObjectsDecl.entry)) := by
  have hentries : (decls.map ObjectsDecl.datum).zipIdx.mapM
      (fun e : Datum × Nat => e.1.entry e.2) = .ok (decls.map ObjectsDecl.entry) := by
    have hfst : decls.zipIdx.map (ObjectsDecl.entry ∘ Prod.fst) = decls.map ObjectsDecl.entry := by
      rw [← List.map_map, List.zipIdx_map_fst]
    rw [List.zipIdx_map, ← hfst]
    exact mapM_map_eq_ok fun e _ => rfl
  rw [Lists] at h
  simp only [listedObjects, h]
  exact except_bind_eq_ok.mpr ⟨_, rfl, except_bind_eq_ok.mpr ⟨_, hentries, rfl⟩⟩

theorem find?_listed (decls : List ObjectsDecl) (type : String) :
    (Table.ofList (decls.map ObjectsDecl.entry)).find? ⟨.text type⟩ =
      (lastWith? ObjectsDecl.type type decls).map fun d => Datum.texts d.objects := by
  rw [Table.find?_ofList, ← List.map_reverse, List.find?_map, Option.map_map]
  simp only [Function.comp_def, ObjectsDecl.entry, Key.text_beq]
  rfl

/-- What the object table holds for a type are the objects listed for it. -/
theorem objects_of_objectsOf (hlists : m.Lists decls) (ht : t.BeginsObjects m) {type : String}
    {e : ObjectEntry} (h : t.objectsOf (.text type) = .ok e) :
    e.objects = Datum.texts (objectsOf decls type) ∧ e.size = (objectsOf decls type).length := by
  obtain ⟨listed, key, hlisted, hkey, hentry⟩ := objectEntry_of_objectsOf ht h
  cases (listedObjects_eq hlists).symm.trans hlisted
  cases hkey
  obtain ⟨hfind, -, hsize⟩ := objectEntry_eq_ok.mp hentry
  rw [find?_listed, Option.map_eq_some_iff] at hfind
  obtain ⟨d, hd, hobjects⟩ := hfind
  have hlast : objectsOf decls type = d.objects := by rw [objectsOf, hd]; rfl
  rw [← hobjects, Datum.texts, Datum.length, List.length_map, Except.ok.injEq] at hsize
  exact ⟨by rw [hlast, hobjects], by rw [hlast, hsize]⟩

/-- A model that was read from a text and lists objects does so by declarations that are written
    in the text. -/
theorem exists_listing_of_verdict {line : Nat} {text : String} {listed : Table Key Datum}
    (h : (Reading.ofText line text).verdict = .model m) (hlisted : m.listedObjects = .ok listed) :
    ∃ decls, m.Lists decls ∧
      ∀ d ∈ decls, ∃ ls, d.Written ls ∧ ls ⊆ (Scan.ofText line text).lexemes := by
  obtain ⟨d, ls, hwritten, hmodel, hsuffix⟩ := Reading.exists_document_of_verdict h
  obtain ⟨b, n, i, -, hlastBlock, -, hisOf⟩ := Document.isOf_of_model hmodel
  have hobjects := hisOf.nonFluents.objects
  cases hlast : lastWith? NonFluentsSection.key "objects" n.sections with
  -- no section: no objects are listed
  | none =>
    refine ⟨[], ?_, by simp⟩
    rw [Lists, hobjects, NonFluentsBlock.value?, hlast]
    rfl
  | some s =>
    have hkey := key_of_lastWith? hlast
    cases s with
    | domain _ => simp [NonFluentsSection.key] at hkey
    | values _ => simp [NonFluentsSection.key] at hkey
    | objects decls =>
      cases decls with
      | nil =>
        -- the absent entry of an empty section cannot be taken apart
        have habsent : m.nonFluents.find? "objects" = some (.list [.absent]) := by
          rw [hobjects, NonFluentsBlock.value?, hlast]
          rfl
        rw [listedObjects, habsent] at hlisted
        cases hlisted
      | cons first rest =>
        refine ⟨first :: rest, ?_, fun o ho => ?_⟩
        · rw [Lists, hobjects, NonFluentsBlock.value?, hlast]
          rfl
        · obtain ⟨l, hl, hsub⟩ := Document.exists_written_nonFluents hwritten
            (mem_of_lastWith? hlastBlock) (mem_of_lastWith? hlast)
          cases hl with
          | objects hitems =>
            obtain ⟨l', hl', hsub'⟩ := hitems.exists_of_mem ho
            refine ⟨l', hl', fun x hx => hsuffix.subset (hsub ?_)⟩
            exact List.mem_cons_of_mem _ (mem_inBraces (hsub' hx))

theorem lists_of_verdict {line : Nat} {text : String} {listed : Table Key Datum}
    (h : (Reading.ofText line text).verdict = .model m) (hlisted : m.listedObjects = .ok listed) :
    ∃ decls, m.Lists decls := by
  obtain ⟨decls, hlists, -⟩ := exists_listing_of_verdict h hlisted
  exact ⟨decls, hlists⟩

end Model

/-! ### Declared fluents -/

theorem Datum.joined_texts (args : List String) :
    (Datum.texts args).joined "," = .ok (",".intercalate args) := by
  refine except_bind_eq_ok.mpr ⟨args.map .text, rfl, except_bind_eq_ok.mpr ⟨args, ?_, rfl⟩⟩
  rw [mapM_eq_ok_iff, List.forall₂_map_left_iff, List.forall₂_same]
  exact fun _ _ => rfl

namespace PVarDecl

def types (v : PVarDecl) : List String := v.params.getD []

/-- A grounding; its arguments stand in brackets if a parameter list was declared. -/
def grounded (v : PVarDecl) (args : List String) : String :=
  match v.params with
  | none => v.name
  | some _ => v.name ++ "(" ++ ",".intercalate args ++ ")"

/-- A fluent has a shape and groundings that fit its declaration and the listed objects. -/
structure IsLaidOut (v : PVarDecl) (decls : List ObjectsDecl) (shape : List Nat)
    (names : List Datum) : Prop where
  arity : shape.length = v.fluent.arity
  size : ∀ (r : Nat) (type : String), v.types[r]? = some type →
    shape[r]? = some (objectsOf decls type).length
  length : names.length = shape.prod
  name : ∀ j < shape.prod, ∃ args : List String,
    names[j]? = some (.text (v.grounded args)) ∧ args.length = v.fluent.arity ∧
      ∀ (r : Nat) (type : String), v.types[r]? = some type → ∃ object,
        args[r]? = some object ∧ (objectsOf decls type)[digit shape r j]? = some object

variable {m : Model} {t : Tables} {decls : List ObjectsDecl} {v : PVarDecl}

theorem paramTypes_pvariable (v : PVarDecl) :
    Model.paramTypes v.pvariable = .ok (v.types.map .text) := by
  cases h : v.params <;>
    simp [Model.paramTypes, pvariable, types, h, Datum.isAbsent, Datum.texts, Datum.items]

theorem exists_objectsOf_of_shape {shape : List Nat} (h : Model.shape t v.pvariable = .ok shape)
    {type : String} (htype : type ∈ v.types) : ∃ e, t.objectsOf (.text type) = .ok e := by
  rw [Model.shape, paramTypes_pvariable] at h
  obtain ⟨size, -, hsize⟩ := exists_ok_of_mapM h (List.mem_map_of_mem htype)
  obtain ⟨e, he, -⟩ := except_bind_eq_ok.mp hsize
  exact ⟨e, he⟩

theorem shape_eq (hlists : m.Lists decls) (ht : t.BeginsObjects m) {shape : List Nat}
    (h : Model.shape t v.pvariable = .ok shape) :
    shape = v.types.map fun type => (objectsOf decls type).length := by
  have hshape : Model.shape t v.pvariable =
      .ok (v.types.map fun type => (objectsOf decls type).length) := by
    rw [Model.shape, paramTypes_pvariable]
    apply mapM_map_eq_ok
    intro type htype
    obtain ⟨e, he⟩ := exists_objectsOf_of_shape h htype
    rw [he, ← (Model.objects_of_objectsOf hlists ht he).2]
    rfl
  rw [hshape] at h
  exact (Except.ok.inj h).symm

theorem groundings_eq (hlists : m.Lists decls) (ht : t.BeginsObjects m) {shape : List Nat}
    (h : Model.shape t v.pvariable = .ok shape) :
    Model.groundings t v.pvariable =
      .ok ((Model.combinations (v.types.map (objectsOf decls))).map fun args =>
        .text (v.grounded args)) := by
  cases hparams : v.params with
  | none =>
    simp [Model.groundings, pvariable, hparams, Datum.isAbsent, types, Model.combinations, grounded]
  | some params =>
    have htypes : v.types = params := by rw [types, hparams]; rfl
    -- first the objects of each parameter type
    have hobjects : (params.map Datum.text).mapM
        (fun type => do .ok (← t.objectsOf type).objects) =
          .ok (params.map fun type => Datum.texts (objectsOf decls type)) := by
      apply mapM_map_eq_ok
      intro type htype
      obtain ⟨e, he⟩ := exists_objectsOf_of_shape h (htypes ▸ htype)
      rw [he, ← (Model.objects_of_objectsOf hlists ht he).1]
      rfl
    have hchoices : (params.map fun type => Datum.texts (objectsOf decls type)).mapM Datum.items =
        .ok ((params.map (objectsOf decls)).map (List.map Datum.text)) := by
      rw [List.map_map]
      exact mapM_map_eq_ok fun _ _ => rfl
    -- then a name for each choice of one object for each type
    have hgrounded :
        (Model.combinations ((params.map (objectsOf decls)).map (List.map Datum.text))).mapM
        (fun values => do
          let args ← (Datum.list values).joined ","
          .ok (Datum.text ((← v.pvariable.name.displayed) ++ "(" ++ args ++ ")"))) =
        .ok ((Model.combinations (params.map (objectsOf decls))).map fun args =>
          Datum.text (v.grounded args)) := by
      rw [combinations_map]
      apply mapM_map_eq_ok
      intro args _
      refine except_bind_eq_ok.mpr ⟨_, Datum.joined_texts args, ?_⟩
      rw [grounded, hparams]
      rfl
    have hlist : v.pvariable.params = Datum.texts params := by rw [pvariable, hparams]; rfl
    rw [htypes, Model.groundings, hlist]
    refine except_bind_eq_ok.mpr ⟨params.map .text, rfl, ?_⟩
    refine except_bind_eq_ok.mpr ⟨_, hobjects, ?_⟩
    exact except_bind_eq_ok.mpr ⟨_, hchoices, hgrounded⟩

theorem exists_isLaidOut (hlists : m.Lists decls) (ht : t.BeginsObjects m) {shape : List Nat}
    (h : Model.shape t v.pvariable = .ok shape) :
    ∃ names, Model.groundings t v.pvariable = .ok names ∧ v.IsLaidOut decls shape names := by
  have hshape := shape_eq hlists ht h
  have hlengths : (v.types.map (objectsOf decls)).map List.length = shape := by
    rw [hshape, List.map_map]
    rfl
  refine ⟨_, groundings_eq hlists ht h, ?_, ?_, ?_, ?_⟩
  · rw [hshape, List.length_map]
    rfl
  · intro r type htype
    rw [hshape, List.getElem?_map, htype]
    rfl
  · -- as many groundings as the product of the sizes
    rw [List.length_map, length_combinations, hlengths]
  · -- the objects of the grounding at `j` are told by the digits of `j`
    intro j hj
    rw [← hlengths] at hj
    obtain ⟨args, hargs, hlength, hdigits⟩ := getElem?_combinations hj
    refine ⟨args, ?_, ?_, ?_⟩
    · rw [List.getElem?_map, hargs]
      rfl
    · rw [hlength, List.length_map]
      rfl
    · intro r type htype
      rw [← hlengths]
      apply hdigits
      rw [List.getElem?_map, htype]
      rfl

end PVarDecl

/-! ### What building makes sure of -/

open Build

namespace Model

variable {m : Model} {t t₀ : Tables}

theorem sizes_congr {u : Tables} (h : u.objects? = t.objects?) (kind : FluentKind) :
    m.sizes u kind = m.sizes t kind := by
  have hobjects : ∀ type, u.objectsOf type = t.objectsOf type := by
    intro type
    simp only [Tables.objectsOf, Tables.objects, h]
  simp only [sizes, shape, hobjects]

/-- The objects of all types are known, and with them the shapes of some kinds of fluents. -/
def Shaped (m : Model) (kinds : List FluentKind) (t : Tables) : Prop :=
  t.HasObjects m m.typeDecls ∧ ∀ kind ∈ kinds, ∃ shapes, m.sizes t kind = .ok shapes

theorem placeFluents_shaped {done : List FluentKind} {kind : FluentKind} :
    Ensures (m.Shaped done) (m.placeFluents kind) (fun _ => m.Shaped (done ++ [kind]))
      (m.Shaped done) := by
  refine .bind (.lift _ fun _ ht => ht) fun fluents => .get_bind fun u => ?_
  refine .bind (.lift _ fun _ ht => ht.2.2) fun shapes => .modify ?_
  rintro t ⟨hshapes, rfl, -, hobjects, hdone⟩
  refine ⟨hobjects, ?_⟩
  intro k hk
  obtain ⟨shapes', hsome⟩ : ∃ shapes', m.sizes t k = .ok shapes' := by
    rcases List.mem_append.mp hk with hk | hk
    · exact hdone k hk
    · cases List.mem_singleton.mp hk
      exact ⟨shapes, hshapes⟩
  exact ⟨shapes', (sizes_congr rfl k).trans hsome⟩

/-- A build that succeeds makes sure of what its last step does, once the objects of all types
    are known. -/
theorem of_build {Q : Tables → Prop} (h : m.build t₀ = .ok () t)
    (hfluents : Ensures (fun t => t.HasObjects m m.typeDecls) m.buildFluents (fun _ => Q)
      (fun _ => True)) : Q t := by
  have hdomain : Keeps (fun _ => True) m.domain.build :=
    Domain.build_keeps (fun _ _ _ _ _ => trivial) m.domain
  have hobjects : Ensures (fun _ => True) m.buildObjects
      (fun _ t => t.HasObjects m m.typeDecls) (fun _ => True) := by
    intro u _
    exact (buildObjects_ensures u.objects? u.fluents?).weaken (fun _ _ hu => hu.2)
      (fun _ _ => trivial) u ⟨rfl, rfl⟩
  exact (Ensures.bind hdomain fun _ => hobjects.bind fun _ => hfluents).of_ok trivial h

/-- A build that succeeds knows the shapes of all kinds of fluents in the fluent table. -/
theorem shaped_of_build (h : m.build t₀ = .ok () t) : m.Shaped groupKinds t := by
  refine of_build h ?_
  rw [buildFluents_eq]
  refine .bind (Q := fun _ => m.Shaped []) (.modify fun u hu => ⟨hu, nofun⟩) fun _ => ?_
  exact (Ensures.forM fun _ _ => placeFluents_shaped).weaken (fun _ _ hu => hu)
    fun _ _ => trivial

/-- A build that succeeds leaves the full fluent table. -/
theorem hasFluents_of_build (h : m.build t₀ = .ok () t) : t.HasFluents m groupKinds := by
  refine of_build (Q := fun t => t.HasFluents m groupKinds) h ?_
  intro u hu
  exact buildFluents_ensures.weaken (fun _ _ hu => hu.2) (fun _ _ => trivial) u
    (.inr ⟨_, List.prefix_refl _, hu⟩)

/-! ### Fluents in canonical order -/

theorem declaration_of_orderedFluents {vars : List PVarDecl} {functions : List CpfDecl}
    (hdecl : m.domain.Declares vars functions) {kind : FluentKind}
    {fluents : List (String × PVariable)} (h : m.orderedFluents kind = .ok fluents) :
    ∃ ordering, m.domain.ordering kind = .ok ordering ∧
      List.Forall₂ (fun name fluent => ∃ v, fluent = (name, v.pvariable) ∧
        lastWith? (fun v => v.fluent.name) name (vars.filter fun v => v.role.kind = kind) = some v)
        ordering fluents := by
  obtain ⟨table, htable, h⟩ := except_bind_eq_ok.mp h
  obtain ⟨ordering, hordering, h⟩ := except_bind_eq_ok.mp h
  refine ⟨ordering, hordering, ?_⟩
  rw [hdecl.fluents_eq, Except.ok.injEq] at htable
  rw [mapM_eq_ok_iff] at h
  refine h.imp ?_
  intro name fluent hfluent
  -- what is found under a name is the last declaration with it
  rw [← htable, @Table.find?_ofList_lastWith? PVarDecl fun v => v.fluent.name] at hfluent
  cases hlast : lastWith? (fun v : PVarDecl => v.fluent.name) name
      (vars.filter fun v => v.role.kind = kind) with
  | none =>
    rw [hlast] at hfluent
    cases hfluent
  | some v =>
    rw [hlast] at hfluent
    cases hfluent
    exact ⟨v, rfl, rfl⟩

/-- **Groundings in row-major order.**  Take a model that was read from a text, build it, and
    take a kind of fluents that has a place in the fluent table.  Then the names, the shapes
    and the groundings of the fluents are all known, and in one order.  Each fluent is laid
    out as its last declaration of the kind says: its shape has for each parameter the number
    of objects listed for the type of the parameter, there are as many groundings as the shape
    has places, and the arguments of the grounding at a position are the objects at the digits
    of the position. -/
theorem groundings_of_build {line : Nat} {text : String}
    (h : (Reading.ofText line text).verdict = .model m) (hbuild : m.build t₀ = .ok () t)
    {kind : FluentKind} (hkind : kind ∈ groupKinds) :
    ∃ vars functions decls, m.domain.Declares vars functions ∧ m.Lists decls ∧
      ∃ ordering shapes grounded, m.domain.ordering kind = .ok ordering ∧
        m.sizes t kind = .ok shapes ∧ m.groundedFluents t kind = .ok grounded ∧
        shapes.length = ordering.length ∧ grounded.length = ordering.length ∧
        ∀ (i : Nat) (name : String), ordering[i]? = some name → ∃ v shape names,
          lastWith? (fun v => v.fluent.name) name (vars.filter fun v => v.role.kind = kind) =
            some v ∧
          shapes[i]? = some shape ∧ grounded[i]? = some (name, names) ∧
          v.IsLaidOut decls shape names := by
  obtain ⟨hobjects, hshaped⟩ := shaped_of_build hbuild
  obtain ⟨shapes, hshapes⟩ := hshaped kind hkind
  obtain ⟨vars, functions, hdecl⟩ := Domain.declares_of_verdict h
  have hbegins : t.BeginsObjects m := .inr ⟨_, List.prefix_refl _, hobjects⟩
  obtain ⟨decls, hlists⟩ : ∃ decls, m.Lists decls := by
    obtain ⟨table, hover, -⟩ := hobjects
    obtain ⟨listed, -, hlisted, -⟩ := objectsOver_eq_ok.mp hover
    exact lists_of_verdict h hlisted
  obtain ⟨fluents, hfluents, hsizes⟩ := except_bind_eq_ok.mp hshapes
  obtain ⟨ordering, hordering, hnames⟩ := declaration_of_orderedFluents hdecl hfluents
  rw [mapM_eq_ok_iff] at hsizes
  -- names, shapes and groundings are three lists of one length, and are compared place by place
  have hlaidOut : ∀ (i : Nat) (name : String), ordering[i]? = some name → ∃ v shape names,
      lastWith? (fun v => v.fluent.name) name (vars.filter fun v => v.role.kind = kind) = some v ∧
        fluents[i]? = some (name, v.pvariable) ∧ shapes[i]? = some shape ∧
        groundings t v.pvariable = .ok names ∧ v.IsLaidOut decls shape names := by
    intro i name hname
    obtain ⟨fluent, hfluent, v, rfl, hlast⟩ := exists_getElem?_of_forall₂ hnames hname
    obtain ⟨shape, hshape, hsize⟩ := exists_getElem?_of_forall₂ hsizes hfluent
    obtain ⟨names, hnames, hlaid⟩ := PVarDecl.exists_isLaidOut hlists hbegins hsize
    exact ⟨v, shape, names, hlast, hfluent, hshape, hnames, hlaid⟩
  -- every fluent that has a shape has groundings
  obtain ⟨grounded, hgrounded⟩ : ∃ grounded, fluents.mapM
      (fun fluent => do .ok (fluent.1, ← groundings t fluent.2)) =
        (.ok grounded : Except Fault (List (String × List Datum))) := by
    apply exists_mapM_eq_ok
    intro fluent hfluent
    obtain ⟨i, hi⟩ := List.mem_iff_getElem?.mp hfluent
    obtain ⟨name, hname, -⟩ := exists_getElem?_of_forall₂ hnames.flip hi
    obtain ⟨v, shape, names, -, hv, -, hgroundings, -⟩ := hlaidOut i name hname
    cases hi.symm.trans hv
    exact ⟨(name, names), except_bind_eq_ok.mpr ⟨names, hgroundings, rfl⟩⟩
  have hsame := mapM_eq_ok_iff.mp hgrounded
  refine ⟨vars, functions, decls, hdecl, hlists, ordering, shapes, grounded, hordering, hshapes,
    except_bind_eq_ok.mpr ⟨fluents, hfluents, hgrounded⟩, ?_, ?_, ?_⟩
  · rw [← hsizes.length_eq, hnames.length_eq]
  · rw [← hsame.length_eq, hnames.length_eq]
  · intro i name hname
    obtain ⟨v, shape, names, hlast, hv, hshape, hgroundings, hlaid⟩ := hlaidOut i name hname
    obtain ⟨g, hg, hrun⟩ := exists_getElem?_of_forall₂ hsame hv
    obtain ⟨names', hnames', hrun⟩ := except_bind_eq_ok.mp hrun
    cases hrun
    cases hgroundings.symm.trans hnames'
    exact ⟨v, shape, names, hlast, hshape, hg, hlaid⟩

end Model

/-! ### A grid -/

def gridText : String := "domain d \x7b
  types \x7b robot : object; cell : object; \x7d;
  pvariables \x7b
    lit : \x7b state-fluent, bool, default = false \x7d;
    go() : \x7b state-fluent, bool, default = false \x7d;
    at(robot, cell) : \x7b state-fluent, bool, default = false \x7d;
  \x7d;
  cpfs \x7b lit' = lit; go'() = lit; at'(?r, ?c) = at(?r, ?c); \x7d;
  reward = 1;
\x7d
non-fluents n \x7b
  objects \x7b robot : \x7br1, r2\x7d; cell : \x7bc1, c2, c3\x7d; \x7d;
\x7d
instance i \x7b \x7d"

def Build.tables? (x : Build Unit) (t : Tables) : Option Tables :=
  match x t with
  | .ok _ t' => some t'
  | .error _ _ => none

theorem Build.eq_ok_of_tables? {x : Build Unit} {t t' : Tables} (h : x.tables? t = some t') :
    x t = .ok () t' := by
  rw [tables?] at h
  split at h
  · next heq =>
    cases h
    exact heq
  · cases h

/-- Two robots and three cells make six places, and a fluent without parameters has one. -/
theorem Model.groundings_of_gridText :
    ∃ m t grounded, (Reading.ofText 1 gridText).verdict = .model m ∧ m.build {} = .ok () t ∧
      m.groundedFluents t .state = .ok grounded ∧
      grounded.map (fun g => (g.1, g.2.length)) = [("at/2", 6), ("go/0", 1), ("lit/0", 1)] := by
  have hread : ((Reading.ofText 1 gridText).verdict.model?.bind fun m =>
      (Build.tables? m.build {}).map fun t =>
        ((m.domain.ordering .state).toOption, (m.sizes t .state).toOption)) =
      some (some ["at/2", "go/0", "lit/0"], some [[2, 3], [], []]) := by
    rw [gridText, Reading.ofText_eq_ofScan 1 rfl]
    decide +kernel
  obtain ⟨m, hmodel, hview⟩ := Option.bind_eq_some_iff.mp hread
  obtain ⟨t, ht, hview⟩ := Option.map_eq_some_iff.mp hview
  simp only [Prod.mk.injEq, toOption_eq_some] at hview
  have hverdict := Verdict.eq_model_of_model? hmodel
  have hbuild := Build.eq_ok_of_tables? ht
  obtain ⟨_, _, _, -, -, ordering, shapes, grounded, hordering, hshapes, hgrounded, -, hlength,
    hplaces⟩ := groundings_of_build hverdict hbuild (by decide : FluentKind.state ∈ groupKinds)
  cases hordering.symm.trans hview.1
  cases hshapes.symm.trans hview.2
  refine ⟨m, t, grounded, hverdict, hbuild, hgrounded, ?_⟩
  -- the three lists are compared place by place
  have hplace : ∀ (i : Nat) (name : String) (shape : List Nat),
      ["at/2", "go/0", "lit/0"][i]? = some name → [[2, 3], [], []][i]? = some shape →
        (grounded.map fun g => (g.1, g.2.length))[i]? = some (name, shape.prod) := by
    intro i name shape hname hshape
    obtain ⟨v, shape', names, -, hshape', hnames, hlaid⟩ := hplaces i name hname
    cases hshape.symm.trans hshape'
    rw [List.getElem?_map, hnames, ← hlaid.length]
    rfl
  apply List.ext_getElem?
  intro i
  rcases i with _ | _ | _ | i
  · exact hplace 0 "at/2" [2, 3] rfl rfl
  · exact hplace 1 "go/0" [] rfl rfl
  · exact hplace 2 "lit/0" [] rfl rfl
  · simp [hlength]

end Rddl
