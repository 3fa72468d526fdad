/-
  Rddl/Proofs/Model/Searches.lean
  ===============================
  **How a search for dependencies ends.**

  Where every intermediate fluent of the fluent table has a function, and none leads back to
  itself, a search ends in one of two ways.  It finds what the expression leads to if all of
  that is in the fluent table; otherwise it fails for a name that is not
  (`Followable.search_of_scope`).  As in a search that finds all, pending expressions are
  dealt with one by one, so a body that fails lets the search fail wherever it is pending.
-/
import Rddl.Proofs.Model.Dependencies

namespace Rddl.Model

variable {m : Model} {t : Tables} {order : Search → List String → List String} {e : Datum}

def Tabled (m : Model) (t : Tables) (e : Datum) : Prop :=
  ∀ name, m.Reaches t e name → ∃ p, t.fluent? name = some p

def Misses (m : Model) (t : Tables) (e : Datum) (name : String) : Prop :=
  m.Reaches t e name ∧ t.fluent? name = none

theorem exists_misses (h : ¬m.Tabled t e) : ∃ name, m.Misses t e name := by
  rw [Tabled, not_forall] at h
  obtain ⟨name, h⟩ := h
  rw [Classical.not_imp, ← Option.isSome_iff_exists, Option.not_isSome_iff_eq_none] at h
  exact ⟨name, h⟩

theorem Misses.not_tabled {name : String} (h : m.Misses t e name) : ¬m.Tabled t e := by
  intro htabled
  obtain ⟨p, hp⟩ := htabled name h.1
  rw [h.2] at hp
  cases hp

/-! ### One visit -/

theorem visitName_unknown {name : String} {table : Table String FluentEntry} (s : Search)
    (htable : t.fluents? = some table) (h : t.fluent? name = none) :
    m.visitName t s name = .error (.missingKey name) := by
  have hfluents : t.fluents = .ok table := by
    rw [Tables.fluents, htable]
    rfl
  have hfind : table.find? name = none := by simpa [Tables.fluent?, htable] using h
  simp [visitName, hfluents, hfind, bind, Except.bind]

/-- A scope with unknown names fails for the first of them. -/
theorem exists_foldlM_visitName_error {names : List String} {table : Table String FluentEntry}
    (htable : t.fluents? = some table)
    (hbodies : ∀ name ∈ names, t.IsIntermediate name → ∃ body, m.intermediateBody name = .ok body)
    (h : ∃ name ∈ names, t.fluent? name = none) (s : Search) :
    ∃ name ∈ names, t.fluent? name = none ∧
      names.foldlM (m.visitName t) s = .error (.missingKey name) := by
  induction names generalizing s with
  | nil => simp at h
  | cons first names ih =>
    rw [List.foldlM_cons]
    -- the first unknown name ends the fold; the names before it only change the search
    cases hfirst : t.fluent? first with
    | none =>
      refine ⟨first, List.mem_cons_self, hfirst, ?_⟩
      rw [visitName_unknown s htable hfirst]
      rfl
    | some p =>
      obtain ⟨s', hs'⟩ : ∃ s', m.visitName t s first = .ok s' := by
        cases hp : p.isOf .intermediate with
        | true =>
          have hint : t.IsIntermediate first := ⟨p, hfirst, hp⟩
          obtain ⟨body, hbody⟩ := hbodies first List.mem_cons_self hint
          exact ⟨_, visitName_intermediate s hint hbody⟩
        | false => exact ⟨_, visitName_other s hfirst hp⟩
      have hrest : ∃ name ∈ names, t.fluent? name = none := by
        obtain ⟨name, hname, hnone⟩ := h
        rcases List.mem_cons.mp hname with rfl | hname
        · cases hfirst.symm.trans hnone
        · exact ⟨name, hname, hnone⟩
      obtain ⟨name, hname, hnone, hfold⟩ :=
        ih (fun name hname => hbodies name (List.mem_cons_of_mem first hname)) hrest s'
      refine ⟨name, List.mem_cons_of_mem first hname, hnone, ?_⟩
      rw [hs']
      exact hfold

/-! ### A whole search -/

/-- From an expression on top of what is pending, a search fails for a name that the
    expression leads to and that is not in the fluent table. -/
def Breaks (m : Model) (t : Tables) (order : Search → List String → List String)
    (e : Datum) : Prop :=
  ∀ (found : Table String PVariable) (among : String → Prop) (pending : List Datum),
    Holds t found among → ∃ name, m.Misses t e name ∧
      m.search t order ⟨found, e :: pending⟩ = some (.error (.missingKey name))

/-- A search is done with an expression, or fails for it, as the fluent table has it. -/
structure Settles (m : Model) (t : Tables) (order : Search → List String → List String)
    (e : Datum) : Prop where
  exhausts : m.Tabled t e → m.Exhausts t order e
  breaks : ¬m.Tabled t e → m.Breaks t order e

theorem exists_search_append_error {bodies : List Datum}
    (hbodies : ∀ body ∈ bodies, m.Settles t order body)
    (h : ∃ body ∈ bodies, ¬m.Tabled t body) {found : Table String PVariable}
    {among : String → Prop} (hfound : Holds t found among) (pending : List Datum) :
    ∃ body ∈ bodies, ∃ name, m.Misses t body name ∧
      m.search t order ⟨found, bodies ++ pending⟩ = some (.error (.missingKey name)) := by
  induction bodies generalizing found among with
  | nil => simp at h
  | cons first bodies ih =>
    by_cases hfirst : m.Tabled t first
    · -- the search is done with the first body and fails in one of the others
      obtain ⟨found₁, hsearch, hfound₁⟩ :=
        (hbodies first List.mem_cons_self).exhausts hfirst found among (bodies ++ pending) hfound
      have hrest : ∃ body ∈ bodies, ¬m.Tabled t body := by
        obtain ⟨body, hbody, hnot⟩ := h
        rcases List.mem_cons.mp hbody with rfl | hbody
        · exact absurd hfirst hnot
        · exact ⟨body, hbody, hnot⟩
      obtain ⟨body, hbody, name, hname, hfails⟩ :=
        ih (fun body hbody => hbodies body (List.mem_cons_of_mem first hbody)) hrest hfound₁
      exact ⟨body, List.mem_cons_of_mem first hbody, name, hname, hsearch.trans hfails⟩
    · -- the search fails in the first body
      obtain ⟨name, hname, hfails⟩ :=
        (hbodies first List.mem_cons_self).breaks hfirst found among (bodies ++ pending) hfound
      exact ⟨first, List.mem_cons_self, name, hname, hfails⟩

section Visit

variable {names : List String} (hscope : e.scopeOf = .ok names)
  (hbodies : ∀ name ∈ names, t.IsIntermediate name →
    ∃ body, m.intermediateBody name = .ok body ∧ m.Settles t order body)
include hscope

theorem Tabled.of_through {name : String} {body : Datum} (h : m.Tabled t e) (hname : name ∈ names)
    (hint : t.IsIntermediate name) (hbody : m.intermediateBody name = .ok body) :
    m.Tabled t body :=
  fun name' hname' => h name' (.through hscope hname hint hbody hname')

theorem Misses.through {name name' : String} {body : Datum} (hname : name ∈ names)
    (hint : t.IsIntermediate name) (hbody : m.intermediateBody name = .ok body)
    (h : m.Misses t body name') : m.Misses t e name' :=
  ⟨.through hscope hname hint hbody h.1, h.2⟩

include hbodies

theorem breaks_of_bodies {table : Table String FluentEntry} (htable : t.fluents? = some table)
    (horder : ∀ s names, (order s names).Perm names) (h : ¬m.Tabled t e) :
    m.Breaks t order e := by
  intro found among pending hfound
  set s : Search := ⟨found, e :: pending⟩
  have hperm : ∀ {name}, name ∈ order s names ↔ name ∈ names := (horder s names).mem_iff
  have hsome : ∀ name ∈ order s names, t.IsIntermediate name →
      ∃ body, m.intermediateBody name = .ok body :=
    fun name hname hint => (hbodies name (hperm.mp hname) hint).imp fun _ => And.left
  by_cases hknown : ∃ name ∈ order s names, t.fluent? name = none
  · -- the visit itself fails
    obtain ⟨name, hname, hnone, hfold⟩ :=
      exists_foldlM_visitName_error htable hsome hknown ⟨found, pending⟩
    exact ⟨name, ⟨.inScope hscope (hperm.mp hname), hnone⟩, search_of_visit_error hscope hfold⟩
  · -- a body that the visit adds fails later
    have hall : ∀ name ∈ order s names, ∃ p, t.fluent? name = some p := by
      intro name hname
      rw [← Option.isSome_iff_exists, ← Option.ne_none_iff_isSome]
      exact fun hnone => hknown ⟨name, hname, hnone⟩
    obtain ⟨found₁, bodies, hfold, hfound₁, hmem⟩ :=
      exists_foldlM_visitName hall hsome hfound pending
    have hof : ∀ body ∈ bodies, ∃ name ∈ names, t.IsIntermediate name ∧
        m.intermediateBody name = .ok body := by
      intro body hbody
      obtain ⟨name, hname, hint, hof⟩ := (hmem body).mp hbody
      exact ⟨name, hperm.mp hname, hint, hof⟩
    have hsettles : ∀ body ∈ bodies, m.Settles t order body := by
      intro body hbody
      obtain ⟨name, hname, hint, hof⟩ := hof body hbody
      obtain ⟨body', hof', hsettles⟩ := hbodies name hname hint
      cases hof.symm.trans hof'
      exact hsettles
    have hfails : ∃ body ∈ bodies, ¬m.Tabled t body := by
      obtain ⟨name, hreach, hnone⟩ := exists_misses h
      rcases (reaches_iff hscope).mp hreach with hname | ⟨name', hname', hint, body, hbody, hreach⟩
      · exact absurd ⟨name, hperm.mpr hname, hnone⟩ hknown
      · exact ⟨body, (hmem body).mpr ⟨name', hperm.mpr hname', hint, hbody⟩,
          Misses.not_tabled ⟨hreach, hnone⟩⟩
    obtain ⟨body, hbody, name, hmisses, hrun⟩ :=
      exists_search_append_error hsettles hfails hfound₁ pending
    obtain ⟨name', hname', hint, hof⟩ := hof body hbody
    exact ⟨name, hmisses.through hscope hname' hint hof,
      (search_of_visit hscope hfold).trans hrun⟩

/-- A visit carries over to an expression what holds of the bodies that it adds. -/
theorem settles_of_bodies {table : Table String FluentEntry} (htable : t.fluents? = some table)
    (horder : ∀ s names, (order s names).Perm names) : m.Settles t order e := by
  constructor
  · intro htabled
    refine exhausts_of_bodies horder hscope ?_ ?_
    · intro name hname
      exact htabled name (.inScope hscope hname)
    · intro name hname hint
      obtain ⟨body, hbody, hsettles⟩ := hbodies name hname hint
      exact ⟨body, hbody, hsettles.exhausts (htabled.of_through hscope hname hint hbody)⟩
  · exact breaks_of_bodies hscope hbodies htable horder

end Visit

/-! ### All searches -/

/-- There is a fluent table, and every intermediate fluent in it has a function whose scope is
    known; none leads back to itself. -/
structure Followable (m : Model) (t : Tables) : Prop where
  table : ∃ table, t.fluents? = some table
  bodies : ∀ name, t.IsIntermediate name →
    ∃ body names, m.intermediateBody name = .ok body ∧ body.scopeOf = .ok names
  acyclic : ∀ name, ¬Relation.TransGen (m.Leads t) name name

namespace Followable

theorem settles (h : m.Followable t) (horder : ∀ s names, (order s names).Perm names)
    {names : List String} (hscope : e.scopeOf = .ok names) : m.Settles t order e := by
  obtain ⟨table, htable⟩ := h.table
  have hwf := wellFounded_leads (fun name hint => hint.imp fun _ => And.left)
    fun name (_ : t.IsIntermediate name) => h.acyclic name
  -- the body of the function of each intermediate fluent, those first that it leads to
  have hbodies : ∀ name : {name // t.IsIntermediate name},
      ∃ body, m.intermediateBody name.1 = .ok body ∧ m.Settles t order body := by
    intro name
    induction name using hwf.induction with
    | _ name ih =>
      obtain ⟨body, names, hbody, hscope⟩ := h.bodies name.1 name.2
      refine ⟨body, hbody, settles_of_bodies hscope ?_ htable horder⟩
      intro name' hname' hint'
      exact ih ⟨name', hint'⟩ (.single ⟨name.2, hint', body, names, hbody, hscope, hname'⟩)
  refine settles_of_bodies hscope ?_ htable horder
  intro name _ hint
  exact hbodies ⟨name, hint⟩

/-- **How a search ends.** -/
theorem search_of_scope (h : m.Followable t) (horder : ∀ s names, (order s names).Perm names)
    {names : List String} (hscope : e.scopeOf = .ok names) :
    (m.Tabled t e → ∃ s, m.search t order (.of e) = some (.ok s) ∧ m.Collects t e s.found) ∧
      (¬m.Tabled t e → ∃ name, m.Misses t e name ∧
        m.search t order (.of e) = some (.error (.missingKey name))) := by
  have hsettles := h.settles horder hscope
  constructor
  · intro htabled
    exact (hsettles.exhausts htabled).exists_search
  · intro hnot
    exact hsettles.breaks hnot .empty _ [] holds_empty

end Followable

end Rddl.Model
