/-
  Rddl/Proofs/Model/Builds.lean
  =============================
  **What any sequence of build steps leaves behind.**

  Build steps can be taken in any order, again and again, and each can fail half-way.
  Two facts hold all the same.  The object table and the fluent table are never
  anything but beginnings of the full ones (`Tables.IsFor`), with the shapes that the
  listed objects give.  And building everything does not see what was built before:
  it fails alike from all tables, or leaves the same six tables (`build_agrees`).

  The first is about one run of a step (`Build.Ensures`), the second about two runs of
  the same step from different tables (`Build.Agrees`).
-/
import Mathlib.Data.List.ReduceOption
import Rddl.Proofs.Collections
import Rddl.Proofs.Datum.Keys
import Rddl.Session

namespace Rddl

/-! ### One run and two runs of a build step -/

namespace Build

variable {α β σ : Type} {x : Build α} {f : α → Build β} {t t' : Tables}

/-- From tables with the first property a step that succeeds leads to tables with the second,
    and one that fails to tables with the third. -/
def Ensures (P : Tables → Prop) (x : Build α) (Q : α → Tables → Prop) (E : Tables → Prop) : Prop :=
  ∀ t, P t → (∃ a t', x t = .ok a t' ∧ Q a t') ∨ ∃ cause t', x t = .error cause t' ∧ E t'

/-- From tables related by `P` a step succeeds twice, with one result and tables related by `Q`,
    or fails twice for one cause. -/
def Agrees (P : Tables → Tables → Prop) (x : Build α) (Q : Tables → Tables → Prop) : Prop :=
  ∀ t u, P t u →
    (∃ a t' u', x t = .ok a t' ∧ x u = .ok a u' ∧ Q t' u') ∨
    ∃ cause t' u', x t = .error cause t' ∧ x u = .error cause u'

theorem bind_of_ok {a : α} (h : x t = .ok a t') : (x >>= f) t = f a t' := by
  simp only [bind, EStateM.bind, h]

theorem bind_of_error {cause : Fault} (h : x t = .error cause t') :
    (x >>= f) t = .error cause t' := by
  simp only [bind, EStateM.bind, h]

theorem lift_ok_bind (a : α) (f : α → Build β) : Build.lift (.ok a) >>= f = f a := rfl

theorem bind_eq_ok {b : β} :
    (x >>= f) t = .ok b t' ↔ ∃ a u, x t = .ok a u ∧ f a u = .ok b t' := by
  cases hx : x t with
  | ok a u => simp [bind_of_ok hx]
  | error cause u => simp [bind_of_error hx]

namespace Ensures

variable {P E : Tables → Prop} {Q : α → Tables → Prop} {R : β → Tables → Prop}

theorem weaken {E' : Tables → Prop} {Q' : α → Tables → Prop} (hx : Ensures P x Q E)
    (hQ : ∀ a t, Q a t → Q' a t) (hE : ∀ t, E t → E' t) : Ensures P x Q' E' := by
  intro t ht
  rcases hx t ht with ⟨a, t', hrun, ht'⟩ | ⟨cause, t', hrun, ht'⟩
  · exact .inl ⟨a, t', hrun, hQ a t' ht'⟩
  · exact .inr ⟨cause, t', hrun, hE t' ht'⟩

theorem of_ok (hx : Ensures P x Q E) (ht : P t) {a : α} (hrun : x t = .ok a t') : Q a t' := by
  rcases hx t ht with ⟨b, u, hrun', hu⟩ | ⟨cause, u, hrun', -⟩
  · cases hrun.symm.trans hrun'
    exact hu
  · cases hrun.symm.trans hrun'

theorem pure (a : α) : Ensures P (Pure.pure a) (fun _ => P) E :=
  fun t ht => .inl ⟨a, t, rfl, ht⟩

theorem lift (r : Except Fault α) (hE : ∀ t, P t → E t) :
    Ensures P (Build.lift r) (fun a t => r = .ok a ∧ P t) E := by
  intro t ht
  cases r with
  | ok a => exact .inl ⟨a, t, rfl, rfl, ht⟩
  | error cause => exact .inr ⟨cause, t, rfl, hE t ht⟩

theorem modify {g : Tables → Tables} {Q : Unit → Tables → Prop} (h : ∀ t, P t → Q () (g t)) :
    Ensures P (modify g) Q E :=
  fun t ht => .inl ⟨(), g t, rfl, h t ht⟩

theorem bind (hx : Ensures P x Q E) (hf : ∀ a, Ensures (Q a) (f a) R E) :
    Ensures P (x >>= f) R E := by
  intro t ht
  rcases hx t ht with ⟨a, t', hrun, ht'⟩ | ⟨cause, t', hrun, ht'⟩
  · rw [bind_of_ok hrun]
    exact hf a t' ht'
  · exact .inr ⟨cause, t', bind_of_error hrun, ht'⟩

theorem get_bind {f : Tables → Build β} (hf : ∀ u, Ensures (fun t => t = u ∧ P t) (f u) R E) :
    Ensures P (get >>= f) R E :=
  fun t ht => hf t t ⟨rfl, ht⟩

/-- A loop leads from the invariant of its start to that of its end; where it fails, the
    invariant of some beginning holds. -/
theorem forM {xs : List σ} {step : σ → Build Unit} {J : List σ → Tables → Prop}
    (h : ∀ done x, Ensures (J done) (step x) (fun _ => J (done ++ [x])) (J done)) :
    Ensures (J []) (xs.forM step) (fun _ => J xs) (fun t => ∃ done, done <+: xs ∧ J done t) := by
  -- stated for what is left, with what is done before it: the invariant is about what is done
  suffices hrest : ∀ done rest, done ++ rest = xs →
      Ensures (J done) (rest.forM step) (fun _ => J xs)
        (fun t => ∃ done, done <+: xs ∧ J done t) from hrest [] xs rfl
  intro done rest
  induction rest generalizing done with
  | nil =>
    intro heq
    rw [List.append_nil] at heq
    rw [heq]
    exact pure ()
  | cons x rest ih =>
    intro heq
    have hnext : done ++ [x] ++ rest = xs := by rw [List.append_assoc]; exact heq
    change Ensures (J done) (step x >>= fun _ => rest.forM step) _ _
    refine bind ((h done x).weaken (fun _ _ ht => ht) ?_) fun _ => ih (done ++ [x]) hnext
    intro t ht
    exact ⟨done, ⟨x :: rest, heq⟩, ht⟩

end Ensures

/-- A step keeps a property of tables, whether it succeeds or fails. -/
def Keeps (I : Tables → Prop) (x : Build α) : Prop := Ensures I x (fun _ => I) I

namespace Keeps

variable {I : Tables → Prop}

theorem pure (a : α) : Keeps I (Pure.pure a) := Ensures.pure a

theorem lift (r : Except Fault α) : Keeps I (Build.lift r) :=
  (Ensures.lift r fun _ ht => ht).weaken (fun _ _ ht => ht.2) fun _ ht => ht

theorem modify {g : Tables → Tables} (h : ∀ t, I t → I (g t)) : Keeps I (modify g) :=
  Ensures.modify h

theorem bind (hx : Keeps I x) (hf : ∀ a, Keeps I (f a)) : Keeps I (x >>= f) :=
  Ensures.bind hx hf

theorem get_bind {f : Tables → Build β} (hf : ∀ u, Keeps I (f u)) : Keeps I (get >>= f) :=
  fun t ht => hf t t ht

theorem forM {xs : List σ} {step : σ → Build Unit} (h : ∀ x, Keeps I (step x)) :
    Keeps I (xs.forM step) := by
  induction xs with
  | nil => exact pure ()
  | cons x xs ih => exact bind (h x) fun _ => ih

end Keeps

namespace Agrees

variable {P Q R : Tables → Tables → Prop}

theorem pure (a : α) : Agrees P (Pure.pure a) P :=
  fun t u h => .inl ⟨a, t, u, rfl, rfl, h⟩

theorem lift (r : Except Fault α) : Agrees P (Build.lift r) P := by
  intro t u h
  cases r with
  | ok a => exact .inl ⟨a, t, u, rfl, rfl, h⟩
  | error cause => exact .inr ⟨cause, t, u, rfl, rfl⟩

theorem modify {g : Tables → Tables} (h : ∀ t u, P t u → Q (g t) (g u)) :
    Agrees P (modify g) Q :=
  fun t u htu => .inl ⟨(), g t, g u, rfl, rfl, h t u htu⟩

theorem bind (hx : Agrees P x Q) (hf : ∀ a, Agrees Q (f a) R) : Agrees P (x >>= f) R := by
  intro t u h
  rcases hx t u h with ⟨a, t', u', ht, hu, h'⟩ | ⟨cause, t', u', ht, hu⟩
  · rw [bind_of_ok ht, bind_of_ok hu]
    exact hf a t' u' h'
  · exact .inr ⟨cause, t', u', bind_of_error ht, bind_of_error hu⟩

/-- A step may look at what is the same in both tables. -/
theorem get_bind {q : Tables → α} (hq : ∀ t u, P t u → q t = q u) (hf : ∀ a, Agrees P (f a) Q) :
    Agrees P (get >>= fun t => f (q t)) Q := by
  intro t u h
  have ht : (get >>= fun t => f (q t)) t = f (q t) t := rfl
  have hu : (get >>= fun t => f (q t)) u = f (q t) u := by rw [hq t u h]; rfl
  rw [ht, hu]
  exact hf (q t) t u h

theorem forM {xs : List σ} {step : σ → Build Unit} (h : ∀ x, Agrees P (step x) P) :
    Agrees P (xs.forM step) P := by
  induction xs with
  | nil => exact pure ()
  | cons x xs ih => exact bind (h x) fun _ => ih

theorem of_eq (x : Build α) : Agrees Eq x Eq := by
  rintro t _ rfl
  cases hrun : x t with
  | ok a t' => exact .inl ⟨a, t', t', rfl, rfl, rfl⟩
  | error cause t' => exact .inr ⟨cause, t', t', rfl, rfl⟩

end Agrees

end Build

/-! ### Building does not see what was built before -/

namespace Tables

structure SamePreconditions (t u : Tables) : Prop where
  localPreconditions : t.localPreconditions? = u.localPreconditions?
  globalPreconditions : t.globalPreconditions? = u.globalPreconditions?

structure SameBounds (t u : Tables) : Prop extends SamePreconditions t u where
  lowerBounds : t.lowerBounds? = u.lowerBounds?
  upperBounds : t.upperBounds? = u.upperBounds?

structure SameObjects (t u : Tables) : Prop extends SameBounds t u where
  objects : t.objects? = u.objects?

end Tables

open Build Tables

namespace Domain

theorem placePrecondition_agrees (actions : Table String PVariable) (condition : Datum) :
    Agrees SamePreconditions (placePrecondition actions condition) SamePreconditions := by
  refine .bind (.lift _) fun scope => ?_
  split
  · apply Agrees.modify
    intro t u h
    exact ⟨by simp [addLocal, h.localPreconditions], h.globalPreconditions⟩
  · apply Agrees.modify
    intro t u h
    exact ⟨h.localPreconditions, by simp [addGlobal, h.globalPreconditions]⟩

theorem placeBound_agrees (name : String) (condition : Datum) :
    Agrees SameBounds (placeBound name condition) SameBounds := by
  refine .bind (.lift _) fun comparison? => ?_
  split
  · exact .pure ()
  · refine .bind (.lift _) fun lower? => ?_
    split
    · apply Agrees.modify
      intro t u h
      exact ⟨⟨h.1.1, h.1.2⟩, by simp [setLower, h.lowerBounds], h.upperBounds⟩
    · refine .bind (.lift _) fun upper? => ?_
      split
      · apply Agrees.modify
        intro t u h
        exact ⟨⟨h.1.1, h.1.2⟩, h.lowerBounds, by simp [setUpper, h.upperBounds]⟩
      · exact .pure ()

theorem build_agrees (d : Domain) : Agrees (fun _ _ => True) d.build SameBounds := by
  have hpreconditions : Agrees (fun _ _ => True) d.buildPreconditions SamePreconditions := by
    refine .bind (.modify (Q := SamePreconditions) fun t u _ => ⟨rfl, rfl⟩) fun _ => ?_
    refine .bind (.lift _) fun actions => .bind (.lift _) fun conditions => ?_
    exact .forM (placePrecondition_agrees actions)
  have hbounds : Agrees SamePreconditions buildBounds SameBounds := by
    refine .bind (.modify (Q := SameBounds) fun t u h => ⟨⟨h.1, h.2⟩, rfl, rfl⟩) fun _ => ?_
    refine Agrees.get_bind (q := localPreconditions) (f := fun r => Build.lift r >>= _) ?_ ?_
    · intro t u h
      simp only [localPreconditions, h.localPreconditions]
    · refine fun r => .bind (.lift r) fun table => .forM fun entry => .forM ?_
      exact placeBound_agrees entry.1
  exact .bind hpreconditions fun _ => hbounds

end Domain

namespace Model

theorem buildObjects_agrees (m : Model) : Agrees SameBounds m.buildObjects SameObjects := by
  refine .bind (.lift _) fun listed => ?_
  refine .bind (.modify (Q := SameObjects) ?_) fun _ => ?_
  · intro t u h
    exact ⟨⟨⟨h.1.1, h.1.2⟩, h.2, h.3⟩, rfl⟩
  refine .bind (.lift _) fun types => .forM fun decl => .bind (.lift _) fun pair => ?_
  obtain ⟨type, body⟩ := pair
  simp only
  split
  · refine .bind (.lift _) fun key => .bind (.lift _) fun entry => .modify ?_
    intro t u h
    exact ⟨⟨⟨h.1.1.1, h.1.1.2⟩, h.1.2, h.1.3⟩, by simp [h.objects]⟩
  · exact .pure ()

theorem buildFluents_agrees (m : Model) : Agrees SameObjects m.buildFluents Eq := by
  refine .bind (.modify (Q := Eq) ?_) fun _ => .of_eq _
  intro t u h
  obtain ⟨⟨⟨h₁, h₂⟩, h₃, h₄⟩, h₅⟩ := h
  simp only [h₁, h₂, h₃, h₄, h₅]

/-- **Building everything from any tables ends alike.** -/
theorem build_agrees (m : Model) : Agrees (fun _ _ => True) m.build Eq :=
  .bind m.domain.build_agrees fun _ => .bind m.buildObjects_agrees fun _ => m.buildFluents_agrees

end Model

/-! ### Beginnings of the tables -/

namespace Model

def typeDecls (m : Model) : List Datum := m.domain.types.items.toOption.getD []

/-- The entry of a declared type in the object table, if it is a type of objects. -/
def typeObjects? (listed : Table Key Datum) (decl : Datum) :
    Except Fault (Option (Key × ObjectEntry)) := do
  let (type, body) ← decl.pair
  if body.isText "object" then
    let key ← type.key
    .ok (some (key, ← objectEntry listed key))
  else .ok none

def objectsOver (m : Model) (decls : List Datum) : Except Fault (Table Key ObjectEntry) := do
  let listed ← m.listedObjects
  let entries ← decls.mapM (typeObjects? listed)
  .ok (Table.ofList entries.reduceOption)

def count (m : Model) (type : Datum) : Except Fault Nat := do
  let listed ← m.listedObjects
  match listed.find? (← type.key) with
  | some objects => objects.length
  | none => .error (.missingKey (← type.displayed))

/-- The fluents of a kind in canonical order, with the shapes that the listed objects give. -/
def group (m : Model) (kind : FluentKind) : Except Fault (List (String × FluentEntry)) := do
  (← m.orderedFluents kind).mapM fun fluent => do
    .ok (fluent.1, ⟨fluent.2, ← (← paramTypes fluent.2).mapM m.count⟩)

def fluentsOver (m : Model) (kinds : List FluentKind) :
    Except Fault (Table String FluentEntry) := do
  let groups ← kinds.mapM m.group
  .ok (Table.ofList groups.flatten)

/-- The kinds with a place in the fluent table, in order. -/
def groupKinds : List FluentKind := [.nonFluent, .state, .action, .intermediate]

end Model

namespace Tables

def HasObjects (t : Tables) (m : Model) (decls : List Datum) : Prop :=
  ∃ table, m.objectsOver decls = .ok table ∧ t.objects? = some table

def HasFluents (t : Tables) (m : Model) (kinds : List FluentKind) : Prop :=
  ∃ table, m.fluentsOver kinds = .ok table ∧ t.fluents? = some table

/-- The object table, if it is set, is that of the first few declared types. -/
def BeginsObjects (t : Tables) (m : Model) : Prop :=
  t.objects? = none ∨ ∃ decls, decls <+: m.typeDecls ∧ t.HasObjects m decls

/-- The fluent table, if it is set, is that of the first few kinds. -/
def BeginsFluents (t : Tables) (m : Model) : Prop :=
  t.fluents? = none ∨ ∃ kinds, kinds <+: Model.groupKinds ∧ t.HasFluents m kinds

structure IsFor (t : Tables) (m : Model) : Prop where
  objects : t.BeginsObjects m
  fluents : t.BeginsFluents m

variable {t u : Tables} {m : Model}

theorem BeginsObjects.congr (h : t.BeginsObjects m) (heq : u.objects? = t.objects?) :
    u.BeginsObjects m := by
  simpa only [BeginsObjects, HasObjects, heq] using h

theorem BeginsFluents.congr (h : t.BeginsFluents m) (heq : u.fluents? = t.fluents?) :
    u.BeginsFluents m := by
  simpa only [BeginsFluents, HasFluents, heq] using h

end Tables

namespace Model

variable {m : Model} {listed : Table Key Datum}

/-! ### The object table -/

theorem objectEntry_eq_ok {key : Key} {e : ObjectEntry} :
    objectEntry listed key = .ok e ↔ listed.find? key = some e.objects ∧
      e.objects.positions = .ok e.index ∧ e.objects.length = .ok e.size := by
  rw [objectEntry]
  cases listed.find? key with
  -- a type that is not listed has no entry
  | none =>
    simp only [except_bind_eq_ok]
    constructor
    · rintro ⟨_, _, h⟩
      cases h
    · rintro ⟨h, -⟩
      cases h
  | some objects =>
    simp only [except_bind_eq_ok, Option.some_inj]
    constructor
    · rintro ⟨index, hindex, size, hsize, h⟩
      cases h
      exact ⟨rfl, hindex, hsize⟩
    · rintro ⟨rfl, hindex, hsize⟩
      exact ⟨_, hindex, _, hsize, rfl⟩

theorem typeObjects?_eq_ok_some {decl : Datum} {key : Key} {e : ObjectEntry}
    (h : typeObjects? listed decl = .ok (some (key, e))) : objectEntry listed key = .ok e := by
  obtain ⟨⟨type, body⟩, -, h⟩ := except_bind_eq_ok.mp h
  simp only at h
  split at h
  · obtain ⟨key', -, h⟩ := except_bind_eq_ok.mp h
    obtain ⟨e', he, h⟩ := except_bind_eq_ok.mp h
    cases h
    exact he
  · cases h

theorem objectsOver_eq_ok {decls : List Datum} {table : Table Key ObjectEntry} :
    m.objectsOver decls = .ok table ↔ ∃ listed entries, m.listedObjects = .ok listed ∧
      decls.mapM (typeObjects? listed) = .ok entries ∧
      table = Table.ofList entries.reduceOption := by
  simp only [objectsOver, except_bind_eq_ok, Except.ok.injEq]
  constructor
  · rintro ⟨listed, hlisted, entries, hentries, rfl⟩
    exact ⟨listed, entries, hlisted, hentries, rfl⟩
  · rintro ⟨listed, entries, hlisted, hentries, rfl⟩
    exact ⟨listed, hlisted, entries, hentries, rfl⟩

theorem objectsOver_append {decls : List Datum} {table : Table Key ObjectEntry} {decl : Datum}
    {new? : Option (Key × ObjectEntry)} (hlisted : m.listedObjects = .ok listed)
    (h : m.objectsOver decls = .ok table) (hdecl : typeObjects? listed decl = .ok new?) :
    m.objectsOver (decls ++ [decl]) =
      .ok (new?.toList.foldl (fun t e => t.insert e.1 e.2) table) := by
  obtain ⟨listed', entries, hlisted', hentries, rfl⟩ := objectsOver_eq_ok.mp h
  cases hlisted.symm.trans hlisted'
  refine objectsOver_eq_ok.mpr ⟨listed, entries ++ [new?], hlisted, ?_, ?_⟩
  · rw [mapM_eq_ok_iff] at hentries ⊢
    exact List.rel_append hentries (.cons hdecl .nil)
  · rw [List.reduceOption_append, Table.ofList_append]
    cases new? <;> rfl

theorem placeObjects_ensures {f : Option (Table String FluentEntry)} {done : List Datum}
    {decl : Datum} (hlisted : m.listedObjects = .ok listed) :
    Ensures (fun t => t.fluents? = f ∧ t.HasObjects m done) (placeObjects listed decl)
      (fun _ t => t.fluents? = f ∧ t.HasObjects m (done ++ [decl]))
      (fun t => t.fluents? = f ∧ t.HasObjects m done) := by
  refine .bind (.lift _ fun _ ht => ht) fun pair => ?_
  obtain ⟨type, body⟩ := pair
  by_cases hbody : body.isText "object" = true
  · -- a type of objects: its entry is added
    simp only [hbody, if_true]
    refine .bind (.lift _ fun _ ht => ht.2) fun key => ?_
    refine .bind (.lift _ fun _ ht => ht.2.2) fun entry => .modify ?_
    rintro t ⟨hentry, hkey, hpair, hf, table, hover, ht⟩
    have hdecl : typeObjects? listed decl = .ok (some (key, entry)) := by
      simp [typeObjects?, hpair, hkey, hentry, hbody, bind, Except.bind]
    exact ⟨hf, _, objectsOver_append hlisted hover hdecl, by rw [ht]; rfl⟩
  · -- an enumeration: nothing changes
    simp only [hbody]
    refine (Ensures.pure ()).weaken ?_ fun _ ht => ht
    rintro _ t ⟨hpair, hf, table, hover, ht⟩
    have hdecl : typeObjects? listed decl = .ok none := by
      simp [typeObjects?, hpair, hbody, bind, Except.bind]
    exact ⟨hf, _, objectsOver_append hlisted hover hdecl, ht⟩

theorem buildObjects_ensures (o : Option (Table Key ObjectEntry))
    (f : Option (Table String FluentEntry)) :
    Ensures (fun t => t.objects? = o ∧ t.fluents? = f) m.buildObjects
      (fun _ t => t.fluents? = f ∧ t.HasObjects m m.typeDecls)
      (fun t => t.fluents? = f ∧ (t.objects? = o ∨ t.BeginsObjects m)) := by
  refine .bind (.lift _ fun _ ht => ⟨ht.2, .inl ht.1⟩) fun listed => ?_
  refine .bind (Q := fun _ t => m.listedObjects = .ok listed ∧ t.fluents? = f ∧ t.HasObjects m [])
    (.modify ?_) fun _ => ?_
  · -- the table is emptied before the first type
    rintro t ⟨hlisted, -, hf⟩
    exact ⟨hlisted, hf, .empty, objectsOver_eq_ok.mpr ⟨listed, [], hlisted, rfl, rfl⟩, rfl⟩
  refine .bind (.lift _ fun t ht => ⟨ht.2.1, .inr (.inr ⟨[], List.nil_prefix, ht.2.2⟩)⟩)
    fun types => ?_
  rintro t ⟨htypes, hlisted, ht⟩
  have hdecls : m.typeDecls = types := by rw [typeDecls, htypes]; rfl
  have hloop : Ensures _ (types.forM (placeObjects listed)) _ _ :=
    .forM (J := fun done t => t.fluents? = f ∧ t.HasObjects m done) fun _ _ =>
      placeObjects_ensures hlisted
  refine hloop.weaken (fun _ t ht => hdecls ▸ ht) ?_ t ht
  -- a type that fails leaves the table of the types before it
  rintro t ⟨decls, hprefix, hf, ht⟩
  exact ⟨hf, .inr (.inr ⟨decls, hdecls ▸ hprefix, ht⟩)⟩

/-- What is found in the object table is what is listed for the type. -/
theorem objectEntry_of_objectsOf {t : Tables} {type : Datum} {e : ObjectEntry}
    (ht : t.BeginsObjects m) (h : t.objectsOf type = .ok e) :
    ∃ listed key, m.listedObjects = .ok listed ∧ type.key = .ok key ∧
      objectEntry listed key = .ok e := by
  obtain ⟨table, htable, h⟩ := except_bind_eq_ok.mp h
  rcases ht with hnone | ⟨decls, -, table', hover, ht⟩
  · rw [Tables.objects, hnone] at htable
    cases htable
  · rw [Tables.objects, ht] at htable
    cases htable
    obtain ⟨listed, entries, hlisted, hentries, rfl⟩ := objectsOver_eq_ok.mp hover
    obtain ⟨key, hkey, h⟩ := except_bind_eq_ok.mp h
    refine ⟨listed, key, hlisted, hkey, ?_⟩
    split at h
    · next found hfind =>
      cases h
      rw [Table.find?_ofList, Option.map_eq_some_iff] at hfind
      obtain ⟨⟨k, e⟩, hmem, rfl⟩ := hfind
      have hsame : (k == key) = true := by simpa using List.find?_some hmem
      have hmem := List.mem_reverse.mp (List.mem_of_find?_eq_some hmem)
      obtain ⟨decl, -, hdecl⟩ :=
        exists_of_mem_mapM hentries (List.reduceOption_mem_iff.mp hmem)
      -- the type found may be written differently, but the same objects are listed for it
      have hentry := objectEntry_eq_ok.mp (typeObjects?_eq_ok_some hdecl)
      rw [Table.find?_congr hsame] at hentry
      exact objectEntry_eq_ok.mpr hentry
    · obtain ⟨_, _, h⟩ := except_bind_eq_ok.mp h
      cases h

theorem count_of_objectsOf {t : Tables} {type : Datum} {e : ObjectEntry}
    (ht : t.BeginsObjects m) (h : t.objectsOf type = .ok e) : m.count type = .ok e.size := by
  obtain ⟨listed, key, hlisted, hkey, hentry⟩ := objectEntry_of_objectsOf ht h
  obtain ⟨hfind, -, hsize⟩ := objectEntry_eq_ok.mp hentry
  simp only [count, hlisted, hkey, bind, Except.bind, hfind, hsize]

/-! ### The fluent table -/

theorem counts_of_shape {t : Tables} {fluent : PVariable} {shape : List Nat}
    (ht : t.BeginsObjects m) (h : Model.shape t fluent = .ok shape) :
    ∃ types, paramTypes fluent = .ok types ∧ types.mapM m.count = .ok shape := by
  obtain ⟨types, htypes, h⟩ := except_bind_eq_ok.mp h
  refine ⟨types, htypes, ?_⟩
  rw [mapM_eq_ok_iff] at h ⊢
  refine h.imp ?_
  intro type size hsize
  obtain ⟨e, he, hsize⟩ := except_bind_eq_ok.mp hsize
  cases hsize
  exact count_of_objectsOf ht he

theorem group_eq_ok {t : Tables} {kind : FluentKind} {fluents : List (String × PVariable)}
    {shapes : List (List Nat)} (ht : t.BeginsObjects m)
    (hfluents : m.orderedFluents kind = .ok fluents) (hshapes : m.sizes t kind = .ok shapes) :
    m.group kind = .ok ((fluents.zip shapes).map fun e => (e.1.1, ⟨e.1.2, e.2⟩)) := by
  obtain ⟨fluents', hfluents', hshapes⟩ := except_bind_eq_ok.mp hshapes
  cases hfluents.symm.trans hfluents'
  refine except_bind_eq_ok.mpr ⟨fluents, hfluents, mapM_zip_eq_ok hshapes ?_⟩
  intro fluent shape hshape
  obtain ⟨types, htypes, hcounts⟩ := counts_of_shape ht hshape
  exact except_bind_eq_ok.mpr ⟨types, htypes, except_bind_eq_ok.mpr ⟨shape, hcounts, rfl⟩⟩

theorem fluentsOver_append {kinds : List FluentKind} {table : Table String FluentEntry}
    {kind : FluentKind} {entries : List (String × FluentEntry)}
    (h : m.fluentsOver kinds = .ok table) (hkind : m.group kind = .ok entries) :
    m.fluentsOver (kinds ++ [kind]) =
      .ok (entries.foldl (fun t e => t.insert e.1 e.2) table) := by
  obtain ⟨groups, hgroups, h⟩ := except_bind_eq_ok.mp h
  cases h
  refine except_bind_eq_ok.mpr ⟨groups ++ [entries], ?_, ?_⟩
  · rw [mapM_eq_ok_iff] at hgroups ⊢
    exact List.rel_append hgroups (.cons hkind .nil)
  · rw [List.flatten_append, Table.ofList_append, List.flatten_singleton]

theorem placeFluents_ensures {done : List FluentKind} {kind : FluentKind} :
    Ensures (fun t => t.BeginsObjects m ∧ t.HasFluents m done) (m.placeFluents kind)
      (fun _ t => t.BeginsObjects m ∧ t.HasFluents m (done ++ [kind]))
      (fun t => t.BeginsObjects m ∧ t.HasFluents m done) := by
  refine .bind (.lift _ fun _ ht => ht) fun fluents => .get_bind fun u => ?_
  refine .bind (.lift _ fun _ ht => ht.2.2) fun shapes => .modify ?_
  rintro t ⟨hshapes, rfl, hfluents, hobjects, table, hover, ht⟩
  refine ⟨hobjects, _, fluentsOver_append hover (group_eq_ok hobjects hfluents hshapes), ?_⟩
  rw [ht, List.foldl_map]
  rfl

theorem buildFluents_eq (m : Model) : m.buildFluents =
    (modify fun t => { t with fluents? := some .empty }) >>= fun _ =>
      groupKinds.forM m.placeFluents := by
  simp only [buildFluents, groupKinds, List.forM, bind_pure_unit]

theorem buildFluents_ensures :
    Ensures (fun t => t.BeginsObjects m) m.buildFluents
      (fun _ t => t.BeginsObjects m ∧ t.HasFluents m groupKinds)
      (fun t => t.BeginsObjects m ∧ t.BeginsFluents m) := by
  rw [buildFluents_eq]
  refine .bind (Q := fun _ t => t.BeginsObjects m ∧ t.HasFluents m []) (.modify ?_) fun _ => ?_
  · intro t hobjects
    exact ⟨hobjects, .empty, rfl, rfl⟩
  · have hloop : Ensures _ (groupKinds.forM m.placeFluents) _ _ :=
      .forM (J := fun done t => t.BeginsObjects m ∧ t.HasFluents m done)
        fun _ _ => placeFluents_ensures
    refine hloop.weaken (fun _ _ ht => ht) ?_
    rintro t ⟨kinds, hkinds, hobjects, ht⟩
    exact ⟨hobjects, .inr ⟨kinds, hkinds, ht⟩⟩

end Model

/-! ### Any sequence of steps -/

namespace Domain

section Keeps

variable {I : Tables → Prop}
  (hI : ∀ t u : Tables, u.objects? = t.objects? → u.fluents? = t.fluents? → I t → I u)
include hI

theorem placePrecondition_keeps (actions : Table String PVariable) (condition : Datum) :
    Keeps I (placePrecondition actions condition) := by
  refine .bind (.lift _) fun scope => ?_
  split
  · exact .modify fun t => hI t _ rfl rfl
  · exact .modify fun t => hI t _ rfl rfl

theorem placeBound_keeps (name : String) (condition : Datum) :
    Keeps I (placeBound name condition) := by
  refine .bind (.lift _) fun comparison? => ?_
  split
  · exact .pure ()
  · refine .bind (.lift _) fun lower? => ?_
    split
    · exact .modify fun t => hI t _ rfl rfl
    · refine .bind (.lift _) fun upper? => ?_
      split
      · exact .modify fun t => hI t _ rfl rfl
      · exact .pure ()

/-- Building a domain touches neither objects nor fluents. -/
theorem build_keeps (d : Domain) : Keeps I d.build := by
  have hpreconditions : Keeps I d.buildPreconditions := by
    refine .bind (.modify fun t => hI t _ rfl rfl) fun _ => ?_
    refine .bind (.lift _) fun actions => .bind (.lift _) fun conditions => ?_
    exact .forM (placePrecondition_keeps hI actions)
  have hbounds : Keeps I buildBounds := by
    refine .bind (.modify fun t => hI t _ rfl rfl) fun _ => .get_bind fun u => ?_
    refine .bind (.lift _) fun table => .forM fun entry => ?_
    exact .forM (placeBound_keeps hI entry.1)
  exact .bind hpreconditions fun _ => hbounds

end Keeps

end Domain

namespace Model

theorem buildObjects_keeps (m : Model) : Keeps (fun t => t.IsFor m) m.buildObjects := by
  intro t ht
  refine (buildObjects_ensures t.objects? t.fluents?).weaken ?_ ?_ t ⟨rfl, rfl⟩
  · rintro _ u ⟨hf, hu⟩
    exact ⟨.inr ⟨_, List.prefix_refl _, hu⟩, ht.fluents.congr hf⟩
  · rintro u ⟨hf, ho | hu⟩
    · exact ⟨ht.objects.congr ho, ht.fluents.congr hf⟩
    · exact ⟨hu, ht.fluents.congr hf⟩

/-- Building the fluents changes nothing but their table. -/
theorem buildFluents_keeps_others {I : Tables → Prop}
    (hI : ∀ t table, I t → I { t with fluents? := some table }) (m : Model) :
    Keeps I m.buildFluents := by
  rw [buildFluents_eq]
  refine .bind (.modify fun t ht => hI t _ ht) fun _ => .forM fun kind => ?_
  exact .bind (.lift _) fun fluents => .get_bind fun u => .bind (.lift _) fun shapes =>
    .modify fun t ht => hI t _ ht

theorem buildFluents_keeps (m : Model) : Keeps (fun t => t.IsFor m) m.buildFluents := by
  intro t ht
  refine buildFluents_ensures.weaken ?_ ?_ t ht.objects
  · rintro _ u ⟨hu, hall⟩
    exact ⟨hu, .inr ⟨_, List.prefix_refl _, hall⟩⟩
  · rintro u ⟨hu, hsome⟩
    exact ⟨hu, hsome⟩

end Model

inductive BuildStep where
  | model
  | domain
  | objects
  | fluents

namespace BuildStep

def run : BuildStep → Model → Build Unit
  | model, m => m.build
  | domain, m => m.domain.build
  | objects, m => m.buildObjects
  | fluents, m => m.buildFluents

/-- **A step, failing or not, leaves beginnings of the full tables.** -/
theorem run_keeps (m : Model) (step : BuildStep) : Keeps (fun t => t.IsFor m) (step.run m) := by
  have hdomain : Keeps (fun t => t.IsFor m) m.domain.build :=
    Domain.build_keeps (fun t u ho hf ht => ⟨ht.objects.congr ho, ht.fluents.congr hf⟩) m.domain
  cases step with
  | model => exact .bind hdomain fun _ => .bind m.buildObjects_keeps fun _ => m.buildFluents_keeps
  | domain => exact hdomain
  | objects => exact m.buildObjects_keeps
  | fluents => exact m.buildFluents_keeps

end BuildStep

namespace Session

/-- A session after steps on its model, each asked for through some field. -/
def builds (s : Session) (steps : List (String × BuildStep)) : Session :=
  steps.foldl (fun s step => (s.build step.1 step.2.run).2) s

variable {s : Session} {m : Model} {t t' : Tables} {step : Model → Build Unit}

theorem build_of_ok (h : s.current? = some (m, t)) (hrun : step m t = .ok () t')
    (field : String) :
    s.build field step = (.ok (), { s with current? := some (m, t') }) := by
  simp only [build, h, hrun]

theorem build_of_error {cause : Fault} (h : s.current? = some (m, t))
    (hrun : step m t = .error cause t') (field : String) :
    s.build field step = (.error cause, { s with current? := some (m, t') }) := by
  simp only [build, h, hrun]

theorem builds_keeps (h : s.current? = some (m, t)) (ht : t.IsFor m)
    (steps : List (String × BuildStep)) :
    ∃ t', s.builds steps = { s with current? := some (m, t') } ∧ t'.IsFor m := by
  induction steps generalizing s t with
  | nil =>
    refine ⟨t, ?_, ht⟩
    rw [← h]
    rfl
  | cons step steps ih =>
    obtain ⟨u, hu, hbuild⟩ : ∃ u, u.IsFor m ∧
        (s.build step.1 step.2.run).2 = { s with current? := some (m, u) } := by
      rcases step.2.run_keeps m t ht with ⟨_, u, hrun, hu⟩ | ⟨cause, u, hrun, hu⟩
      · exact ⟨u, hu, by rw [build_of_ok h hrun]⟩
      · exact ⟨u, hu, by rw [build_of_error h hrun]⟩
    obtain ⟨t', hrest, ht'⟩ := ih (s := { s with current? := some (m, u) }) rfl hu
    refine ⟨t', ?_, ht'⟩
    rw [builds, List.foldl_cons, hbuild]
    exact hrest

/-- **Tables after any steps, failed ones included.**  The model is the one that was held at
    the start.  The object table, if it is set, holds the object types among the first few
    declared types; the fluent table, if it is set, holds the fluents of the first few kinds,
    with the shapes that the listed objects give.  And building everything once more ends as
    it does without these steps: it fails for the same cause, or leaves the same session with
    the same six tables. -/
theorem tables_of_builds (s : Session) (m : Model) (steps : List (String × BuildStep)) :
    ∃ t, (s.hold (some m)).builds steps = { s with current? := some (m, t) } ∧
      (∀ table, t.objects? = some table →
        ∃ decls, decls <+: m.typeDecls ∧ m.objectsOver decls = .ok table) ∧
      (∀ table, t.fluents? = some table →
        ∃ kinds, kinds <+: Model.groupKinds ∧ m.fluentsOver kinds = .ok table) ∧
      ∀ field,
        (((s.hold (some m)).builds steps).build field Model.build).1 =
          ((s.hold (some m)).build field Model.build).1 ∧
        (((s.hold (some m)).build field Model.build).1 = .ok () →
          ((s.hold (some m)).builds steps).build field Model.build =
            (s.hold (some m)).build field Model.build) := by
  have hfresh : (s.hold (some m)).current? = some (m, {}) := rfl
  obtain ⟨t, hsteps, ht⟩ := builds_keeps hfresh ⟨.inl rfl, .inl rfl⟩ steps
  refine ⟨t, hsteps, ?_, ?_, ?_⟩
  · intro table htable
    rcases ht.objects with hnone | ⟨decls, hprefix, table', hover, hsome⟩
    · cases hnone.symm.trans htable
    · cases hsome.symm.trans htable
      exact ⟨decls, hprefix, hover⟩
  · intro table htable
    rcases ht.fluents with hnone | ⟨kinds, hprefix, table', hover, hsome⟩
    · cases hnone.symm.trans htable
    · cases hsome.symm.trans htable
      exact ⟨kinds, hprefix, hover⟩
  · intro field
    have hreached : ((s.hold (some m)).builds steps).current? = some (m, t) := by rw [hsteps]
    -- whatever the steps left behind, the build replaces before it reads it
    rcases m.build_agrees t {} trivial with
      ⟨_, t', _, hrun, hrun', rfl⟩ | ⟨cause, t', u', hrun, hrun'⟩
    · rw [build_of_ok hreached hrun, build_of_ok hfresh hrun', hsteps]
      exact ⟨rfl, fun _ => rfl⟩
    · rw [build_of_error hreached hrun, build_of_error hfresh hrun']
      exact ⟨rfl, nofun⟩

end Session

end Rddl
