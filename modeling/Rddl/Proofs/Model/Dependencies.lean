/-
  Rddl/Proofs/Model/Dependencies.lean
  ===================================
  **What a search for dependencies finds.**

  `Model.Reaches` says which names an expression leads to: those in its scope and, through
  every intermediate fluent there, those that the body of its function leads to.  The
  search keeps no record of the fluents it has followed, so it need not end; it does where
  no intermediate fluent leads back to itself.  Pending expressions are a stack, so a
  visited expression is dealt with, and all it leads to, before what was pending below it
  (`Exhausts`).  One visit carries this over from the bodies that it adds
  (`exhausts_of_bodies`), and the intermediate fluents are taken in the order in which they
  lead to each other.
-/
import Mathlib.Data.Fintype.Card
import Mathlib.Data.Set.Finite.Basic
import Rddl.Model.Dependencies
import Rddl.Proofs.Domain.Classification

namespace Rddl

/-! ### Functions of intermediate fluents -/

namespace Domain

def HasIntegerLevels (d : Domain) : Prop :=
  ∀ fluents name p, d.fluents .intermediate = .ok fluents → fluents.find? name = some p →
    ∃ level, p.level = .integer level

def HasFunction (d : Domain) (name : String) : Prop :=
  ∃ cpfs, d.cpfsOf .intermediate .ok = .ok cpfs ∧ (∃ c ∈ cpfs, c.name = name) ∧
    ∀ c ∈ cpfs, c.name = name → ∃ body, c.cpf.functionBody = .ok body

theorem find?_of_mem_cpfsOf {d : Domain} {kind : FluentKind} {cpfs : List NamedCpf}
    {c : NamedCpf} (h : d.cpfsOf kind .ok = .ok cpfs) (hc : c ∈ cpfs) :
    ∃ fluents, d.fluents kind = .ok fluents ∧ fluents.find? c.name = some c.fluent := by
  rw [cpfsOf, except_bind_eq_ok] at h
  obtain ⟨data, -, h⟩ := h
  obtain ⟨cpf, -, hcpf⟩ := exists_of_mem_filterMapM h hc
  simp only [except_bind_eq_ok, Except.ok.injEq, Option.map_eq_some_iff] at hcpf
  obtain ⟨name, -, _, rfl, fluents, hfluents, p, hp, rfl⟩ := hcpf
  exact ⟨fluents, hfluents, hp⟩

/-- Functions of fluents with integer levels can be sorted. -/
theorem exists_intermediateCpfs {d : Domain} {cpfs : List NamedCpf}
    (hlevels : d.HasIntegerLevels) (hcpfs : d.cpfsOf .intermediate .ok = .ok cpfs) :
    ∃ sorted, d.intermediateCpfs = .ok sorted ∧ sorted.Perm cpfs := by
  have hinteger : ∀ c ∈ cpfs, ∃ level, c.fluent.level = .integer level := by
    intro c hc
    obtain ⟨fluents, hfluents, hfind⟩ := find?_of_mem_cpfsOf hcpfs hc
    exact hlevels fluents c.name c.fluent hfluents hfind
  have hconstant : ∀ c ∈ cpfs, ∃ k : Constant, c.fluent.level = k.datum := by
    intro c hc
    obtain ⟨level, hlevel⟩ := hinteger c hc
    exact ⟨.integer level, hlevel⟩
  have hsame : ∀ a ∈ cpfs, ∀ b ∈ cpfs, a.fluent.level.isNumeric = b.fluent.level.isNumeric := by
    intro a ha b hb
    obtain ⟨level, hlevel⟩ := hinteger a ha
    obtain ⟨level', hlevel'⟩ := hinteger b hb
    rw [hlevel, hlevel']
    rfl
  obtain ⟨sorted, hsorted⟩ := (exists_intermediateCpfs_iff_isNumeric hcpfs hconstant).mpr hsame
  exact ⟨sorted, hsorted, Datum.perm_of_sortOn ((intermediateCpfs_eq hcpfs).symm.trans hsorted)⟩

end Domain

theorem Model.exists_intermediateBody {m : Model} {name : String}
    (hlevels : m.domain.HasIntegerLevels) (h : m.domain.HasFunction name) :
    ∃ body, m.intermediateBody name = .ok body := by
  obtain ⟨cpfs, hcpfs, ⟨c, hc, hname⟩, hfunctions⟩ := h
  obtain ⟨sorted, hsorted, hperm⟩ := Domain.exists_intermediateCpfs hlevels hcpfs
  obtain ⟨first, hfirst⟩ : ∃ first, sorted.find? (fun c => c.name == name) = some first := by
    rw [← Option.isSome_iff_exists, List.find?_isSome]
    exact ⟨c, hperm.mem_iff.mpr hc, by simpa using hname⟩
  obtain ⟨body, hbody⟩ :=
    hfunctions first (hperm.mem_iff.mp (List.mem_of_find?_eq_some hfirst))
      (by simpa using List.find?_some hfirst)
  refine ⟨body, ?_⟩
  simp [intermediateBody, Domain.intermediateCpf?, hsorted, hfirst, hbody, bind, Except.bind]

/-! ### Names that an expression leads to -/

namespace Tables

def fluent? (t : Tables) (name : String) : Option PVariable :=
  t.fluents?.bind fun table => (table.find? name).map FluentEntry.fluent

def IsIntermediate (t : Tables) (name : String) : Prop :=
  ∃ p, t.fluent? name = some p ∧ p.isOf .intermediate = true

theorem exists_table_of_fluent? {t : Tables} {name : String} {p : PVariable}
    (h : t.fluent? name = some p) :
    ∃ table entry, t.fluents = .ok table ∧ table.find? name = some entry ∧ entry.fluent = p := by
  obtain ⟨table, htable, hfind⟩ := Option.bind_eq_some_iff.mp h
  obtain ⟨entry, hentry, hfluent⟩ := Option.map_eq_some_iff.mp hfind
  exact ⟨table, entry, by rw [fluents, htable]; rfl, hentry, hfluent⟩

theorem finite_fluent? (t : Tables) : {name | ∃ p, t.fluent? name = some p}.Finite := by
  cases htable : t.fluents? with
  | none => simp [fluent?, htable]
  | some table =>
    refine (List.finite_toSet table.keys).subset ?_
    rintro name ⟨p, hp⟩
    simp only [fluent?, htable, Option.bind_some, Option.map_eq_some_iff] at hp
    obtain ⟨entry, hentry, -⟩ := hp
    exact Table.mem_keys_of_find? hentry

end Tables

namespace Model

variable {m : Model} {t : Tables}

/-- A name that an expression leads to. -/
inductive Reaches (m : Model) (t : Tables) : Datum → String → Prop
  | inScope {e names name} : e.scopeOf = .ok names → name ∈ names → Reaches m t e name
  | through {e names name body name'} : e.scopeOf = .ok names → name ∈ names →
      t.IsIntermediate name → m.intermediateBody name = .ok body → Reaches m t body name' →
      Reaches m t e name'

/-- The function of one intermediate fluent has another in the scope of its body. -/
def Leads (m : Model) (t : Tables) (name name' : String) : Prop :=
  t.IsIntermediate name ∧ t.IsIntermediate name' ∧
    ∃ body names, m.intermediateBody name = .ok body ∧ body.scopeOf = .ok names ∧ name' ∈ names

/-- No scope that is met fails, and every name that is met has a fluent; an intermediate one
    has a function, and does not lead back to itself. -/
structure Traceable (m : Model) (t : Tables) (e : Datum) : Prop where
  scope : ∃ names, e.scopeOf = .ok names
  scopes : ∀ name body, m.Reaches t e name → t.IsIntermediate name →
    m.intermediateBody name = .ok body → ∃ names, body.scopeOf = .ok names
  known : ∀ name, m.Reaches t e name → ∃ p, t.fluent? name = some p
  defined : ∀ name, m.Reaches t e name → t.IsIntermediate name → m.domain.HasFunction name
  acyclic : ∀ name, m.Reaches t e name → ¬ Relation.TransGen (m.Leads t) name name

theorem reaches_iff {e : Datum} {names : List String} {name : String}
    (h : e.scopeOf = .ok names) :
    m.Reaches t e name ↔ name ∈ names ∨ ∃ name' ∈ names, t.IsIntermediate name' ∧
      ∃ body, m.intermediateBody name' = .ok body ∧ m.Reaches t body name := by
  constructor
  · intro hreach
    cases hreach with
    | inScope hscope hmem =>
      cases h.symm.trans hscope
      exact .inl hmem
    | through hscope hmem hint hbody hreach =>
      cases h.symm.trans hscope
      exact .inr ⟨_, hmem, hint, _, hbody, hreach⟩
  · rintro (hmem | ⟨name', hmem, hint, body, hbody, hreach⟩)
    · exact .inScope h hmem
    · exact .through h hmem hint hbody hreach

theorem Reaches.trans {e body : Datum} {name name' : String} (h : m.Reaches t e name)
    (hint : t.IsIntermediate name) (hbody : m.intermediateBody name = .ok body)
    (h' : m.Reaches t body name') : m.Reaches t e name' := by
  induction h with
  | inScope hscope hmem => exact .through hscope hmem hint hbody h'
  | through hscope hmem hint' hbody' _ ih => exact .through hscope hmem hint' hbody' (ih hint hbody)

/-- Among names in the fluent table, following intermediate fluents that do not lead back to
    themselves goes on only finitely long. -/
theorem wellFounded_leads {among : String → Prop}
    (hknown : ∀ name, among name → ∃ p, t.fluent? name = some p)
    (hacyclic : ∀ name, among name → ¬Relation.TransGen (m.Leads t) name name) :
    WellFounded fun name name' : {name // among name} =>
      Relation.TransGen (m.Leads t) name'.1 name.1 := by
  have hfinite : Finite {name // among name} :=
    (t.finite_fluent?.subset fun name hname => hknown name hname).to_subtype
  have htrans : IsTrans {name // among name} fun name name' =>
      Relation.TransGen (m.Leads t) name'.1 name.1 :=
    ⟨fun _ _ _ hab hbc => hbc.trans hab⟩
  have hirrefl : Std.Irrefl fun name name' : {name // among name} =>
      Relation.TransGen (m.Leads t) name'.1 name.1 :=
    ⟨fun name => hacyclic name.1 name.2⟩
  exact Finite.wellFounded_of_trans_of_irrefl _

/-- Names that the scopes of bodies do not lead out of, with a rank that falls from an
    intermediate fluent to what is in the scope of its body. -/
def IsRanked (m : Model) (t : Tables) (closed : List String) (rank : String → Nat) : Prop :=
  ∀ name ∈ closed, ∃ p, t.fluent? name = some p ∧
    (p.isOf .intermediate = true → m.domain.HasFunction name ∧
      ∃ body names, m.intermediateBody name = .ok body ∧ body.scopeOf = .ok names ∧
        ∀ name' ∈ names, name' ∈ closed ∧ rank name' < rank name)

namespace IsRanked

variable {closed : List String} {rank : String → Nat} (h : m.IsRanked t closed rank)
include h

theorem of_isIntermediate {name : String} (hname : name ∈ closed) (hint : t.IsIntermediate name) :
    m.domain.HasFunction name ∧
      ∃ body names, m.intermediateBody name = .ok body ∧ body.scopeOf = .ok names ∧
        ∀ name' ∈ names, name' ∈ closed ∧ rank name' < rank name := by
  obtain ⟨p, hp, hpint⟩ := hint
  obtain ⟨p', hp', hbody⟩ := h name hname
  cases hp.symm.trans hp'
  exact hbody hpint

theorem mem_of_reaches {e : Datum} {names : List String} {name : String}
    (hscope : e.scopeOf = .ok names) (hnames : ∀ name ∈ names, name ∈ closed)
    (hreach : m.Reaches t e name) : name ∈ closed := by
  induction hreach generalizing names with
  | inScope hscope' hmem =>
    cases hscope.symm.trans hscope'
    exact hnames _ hmem
  | through hscope' hmem hint hbody _ ih =>
    cases hscope.symm.trans hscope'
    obtain ⟨-, body, inner, hbody', hinner, hfalls⟩ := h.of_isIntermediate (hnames _ hmem) hint
    cases hbody.symm.trans hbody'
    exact ih hinner fun name' hname' => (hfalls name' hname').1

theorem of_leads {name name' : String} (hname : name ∈ closed) (hleads : m.Leads t name name') :
    name' ∈ closed ∧ rank name' < rank name := by
  obtain ⟨hint, -, body, inner, hbody, hinner, hname'⟩ := hleads
  obtain ⟨-, body', inner', hbody', hinner', hfalls⟩ := h.of_isIntermediate hname hint
  cases hbody.symm.trans hbody'
  cases hinner.symm.trans hinner'
  exact hfalls name' hname'

theorem of_transGen {name name' : String} (hname : name ∈ closed)
    (hleads : Relation.TransGen (m.Leads t) name name') :
    name' ∈ closed ∧ rank name' < rank name := by
  induction hleads with
  | single hlead => exact h.of_leads hname hlead
  | tail _ hlead ih =>
    obtain ⟨hclosed, hless⟩ := h.of_leads ih.1 hlead
    exact ⟨hclosed, hless.trans ih.2⟩

/-- An expression with ranked names in its scope leads to ranked names only. -/
theorem traceable {e : Datum} {names : List String} (hscope : e.scopeOf = .ok names)
    (hnames : ∀ name ∈ names, name ∈ closed) : m.Traceable t e := by
  have hmem : ∀ name, m.Reaches t e name → name ∈ closed :=
    fun name => h.mem_of_reaches hscope hnames
  refine ⟨⟨names, hscope⟩, ?_, ?_, ?_, ?_⟩
  · intro name body hname hint hbody
    obtain ⟨-, body', inner, hbody', hinner, -⟩ := h.of_isIntermediate (hmem name hname) hint
    cases hbody.symm.trans hbody'
    exact ⟨inner, hinner⟩
  · intro name hname
    obtain ⟨p, hp, -⟩ := h name (hmem name hname)
    exact ⟨p, hp⟩
  · intro name hname hint
    exact (h.of_isIntermediate (hmem name hname) hint).1
  · -- on a cycle the rank of a name would fall below itself
    intro name hname hcycle
    exact (h.of_transGen (hmem name hname) hcycle).2.ne rfl

end IsRanked

/-! ### One visit -/

/-- The fluents that a table has are those under the names of a set that are not
    intermediate. -/
structure Holds (t : Tables) (found : Table String PVariable) (among : String → Prop) : Prop where
  nodup : found.keys.Nodup
  find?_iff : ∀ name p, found.find? name = some p ↔
    among name ∧ t.fluent? name = some p ∧ p.isOf .intermediate = false

theorem Holds.congr {found : Table String PVariable} {among among' : String → Prop}
    (h : Holds t found among) (hiff : ∀ name, among name ↔ among' name) :
    Holds t found among' :=
  ⟨h.nodup, fun name p => by rw [h.find?_iff, hiff]⟩

theorem holds_empty : Holds t .empty fun _ => False :=
  ⟨by simp [Table.empty, Table.keys], by simp [Table.empty, Table.find?, Table.findEntry?]⟩

theorem Holds.insert {found : Table String PVariable} {among : String → Prop} {name : String}
    {p : PVariable} (h : Holds t found among) (hname : t.fluent? name = some p)
    (hp : p.isOf .intermediate = false) :
    Holds t (found.insert name p) fun name' => among name' ∨ name' = name := by
  refine ⟨Table.nodup_keys_insertEntry h.nodup, fun name' p' => ?_⟩
  rw [Table.find?_insert]
  by_cases hsame : name = name'
  · subst hsame
    simp only [beq_self_eq_true, if_true, Option.some.injEq, or_true, true_and, hname]
    exact ⟨fun heq => ⟨heq, heq ▸ hp⟩, And.left⟩
  · rw [if_neg (by simpa using hsame), h.find?_iff]
    simp [Ne.symm hsame]

/-- An intermediate fluent adds nothing to what a table has to have. -/
theorem Holds.skip {found : Table String PVariable} {among : String → Prop} {name : String}
    (h : Holds t found among) (hint : t.IsIntermediate name) :
    Holds t found fun name' => among name' ∨ name' = name := by
  obtain ⟨q, hq, hqint⟩ := hint
  refine ⟨h.nodup, fun name' p => ?_⟩
  rw [h.find?_iff]
  constructor
  · rintro ⟨hamong, hp⟩
    exact ⟨.inl hamong, hp⟩
  · rintro ⟨hamong | rfl, hp, hpint⟩
    · exact ⟨hamong, hp, hpint⟩
    · cases hq.symm.trans hp
      simp [hqint] at hpint

theorem visitName_intermediate {name : String} {body : Datum} (s : Search)
    (hint : t.IsIntermediate name) (hbody : m.intermediateBody name = .ok body) :
    m.visitName t s name = .ok { s with pending := body :: s.pending } := by
  obtain ⟨p, hp, hpint⟩ := hint
  obtain ⟨table, entry, htable, hentry, rfl⟩ := Tables.exists_table_of_fluent? hp
  simp [visitName, htable, hentry, hpint, hbody, bind, Except.bind]

theorem visitName_other {name : String} {p : PVariable} (s : Search)
    (hp : t.fluent? name = some p) (hpint : p.isOf .intermediate = false) :
    m.visitName t s name = .ok { s with found := s.found.insert name p } := by
  obtain ⟨table, entry, htable, hentry, rfl⟩ := Tables.exists_table_of_fluent? hp
  simp [visitName, htable, hentry, hpint, bind, Except.bind]

/-- The names of a scope are taken note of: the fluents among them are found, and the bodies
    of the functions of the intermediate ones go on top of what is pending. -/
theorem exists_foldlM_visitName {names : List String}
    (hknown : ∀ name ∈ names, ∃ p, t.fluent? name = some p)
    (hbodies : ∀ name ∈ names, t.IsIntermediate name →
      ∃ body, m.intermediateBody name = .ok body)
    {found : Table String PVariable} {among : String → Prop} (hfound : Holds t found among)
    (pending : List Datum) :
    ∃ found' bodies,
      names.foldlM (m.visitName t) ⟨found, pending⟩ = .ok ⟨found', bodies ++ pending⟩ ∧
      Holds t found' (fun name => among name ∨ name ∈ names) ∧
      ∀ body, body ∈ bodies ↔
        ∃ name ∈ names, t.IsIntermediate name ∧ m.intermediateBody name = .ok body := by
  induction names generalizing found among pending with
  | nil => exact ⟨found, [], rfl, hfound.congr (by simp), by simp⟩
  | cons name names ih =>
    have hrest := @ih (fun n hn => hknown n (by simp [hn])) (fun n hn => hbodies n (by simp [hn]))
    obtain ⟨p, hp⟩ := hknown name (by simp)
    cases hpint : p.isOf .intermediate with
    | true =>
      have hint : t.IsIntermediate name := ⟨p, hp, hpint⟩
      obtain ⟨body, hbody⟩ := hbodies name (by simp) hint
      obtain ⟨found', bodies, hfold, hholds, hmem⟩ := hrest (hfound.skip hint) (body :: pending)
      -- a body is pushed onto the pending ones, so that of the first name stands last
      refine ⟨found', bodies ++ [body], ?_, hholds.congr (by simp [or_assoc]), fun body' => ?_⟩
      · rw [List.foldlM_cons, visitName_intermediate _ hint hbody]
        simpa [bind, Except.bind] using hfold
      · simp only [List.mem_append, hmem, List.mem_cons, List.not_mem_nil, or_false,
          exists_eq_or_imp, hint, true_and, hbody, Except.ok.injEq]
        rw [or_comm, eq_comm]
    | false =>
      have hnot : ¬ t.IsIntermediate name := by
        rintro ⟨q, hq, hqint⟩
        cases hp.symm.trans hq
        simp [hqint] at hpint
      obtain ⟨found', bodies, hfold, hholds, hmem⟩ := hrest (hfound.insert hp hpint) pending
      refine ⟨found', bodies, ?_, hholds.congr (by simp [or_assoc]), fun body => ?_⟩
      · rw [List.foldlM_cons, visitName_other _ hp hpint]
        exact hfold
      · simp only [hmem, List.mem_cons, exists_eq_or_imp, hnot, false_and, false_or]

/-! ### A whole search -/

variable {order : Search → List String → List String}

section Visit

variable {e : Datum} {names : List String} {found : Table String PVariable} {pending : List Datum}
  (hscope : e.scopeOf = .ok names)
include hscope

/-- A visit goes through the names in the scope of the expression. -/
theorem visit_of_scope :
    m.visit t (order ⟨found, e :: pending⟩) ⟨found, pending⟩ e =
      (order ⟨found, e :: pending⟩ names).foldlM (m.visitName t) ⟨found, pending⟩ := by
  rw [visit, hscope]
  rfl

/-- A search goes on from where a visit to the latest pending expression leaves it. -/
theorem search_of_visit {next : Search}
    (h : (order ⟨found, e :: pending⟩ names).foldlM (m.visitName t) ⟨found, pending⟩ = .ok next) :
    m.search t order ⟨found, e :: pending⟩ = m.search t order next := by
  rw [search]
  simp only [visit_of_scope hscope, h]

/-- A search fails where a visit does. -/
theorem search_of_visit_error {cause : Fault}
    (h : (order ⟨found, e :: pending⟩ names).foldlM (m.visitName t) ⟨found, pending⟩ =
      .error cause) :
    m.search t order ⟨found, e :: pending⟩ = some (.error cause) := by
  rw [search]
  simp only [visit_of_scope hscope, h]

end Visit

/-- From an expression on top of what is pending, a search comes to what is pending below it,
    having found the fluents that the expression leads to. -/
def Exhausts (m : Model) (t : Tables) (order : Search → List String → List String)
    (e : Datum) : Prop :=
  ∀ (found : Table String PVariable) (among : String → Prop) (pending : List Datum),
    Holds t found among → ∃ found', m.search t order ⟨found, e :: pending⟩ =
        m.search t order ⟨found', pending⟩ ∧
      Holds t found' fun name => among name ∨ m.Reaches t e name

theorem exists_search_append {bodies : List Datum}
    (hbodies : ∀ body ∈ bodies, m.Exhausts t order body) {found : Table String PVariable}
    {among : String → Prop} (hfound : Holds t found among) (pending : List Datum) :
    ∃ found', m.search t order ⟨found, bodies ++ pending⟩ = m.search t order ⟨found', pending⟩ ∧
      Holds t found' fun name => among name ∨ ∃ body ∈ bodies, m.Reaches t body name := by
  induction bodies generalizing found among with
  | nil => exact ⟨found, rfl, hfound.congr (by simp)⟩
  | cons body bodies ih =>
    obtain ⟨found₁, hfirst, hfound₁⟩ :=
      hbodies body (by simp) found among (bodies ++ pending) hfound
    obtain ⟨found₂, hrest, hfound₂⟩ := ih (fun b hb => hbodies b (by simp [hb])) hfound₁
    exact ⟨found₂, hfirst.trans hrest, hfound₂.congr (by simp [or_assoc])⟩

/-- A visit carries over to an expression what holds of the bodies that it adds. -/
theorem exhausts_of_bodies {e : Datum} {names : List String}
    (horder : ∀ s names, (order s names).Perm names) (hscope : e.scopeOf = .ok names)
    (hknown : ∀ name ∈ names, ∃ p, t.fluent? name = some p)
    (hbodies : ∀ name ∈ names, t.IsIntermediate name →
      ∃ body, m.intermediateBody name = .ok body ∧ m.Exhausts t order body) :
    m.Exhausts t order e := by
  intro found among pending hfound
  set s : Search := ⟨found, e :: pending⟩
  have hperm : ∀ {name}, name ∈ order s names ↔ name ∈ names := (horder s names).mem_iff
  -- first the visit: what it finds, and the bodies that it leaves to be visited
  obtain ⟨found₁, bodies, hfold, hfound₁, hmem⟩ :=
    exists_foldlM_visitName (m := m) (fun name hname => hknown name (hperm.mp hname))
      (fun name hname hint => (hbodies name (hperm.mp hname) hint).imp fun _ => And.left)
      hfound pending
  have hexhausts : ∀ body ∈ bodies, m.Exhausts t order body := by
    intro body hbody
    obtain ⟨name, hname, hint, hof⟩ := (hmem body).mp hbody
    obtain ⟨body', hof', hexhausts⟩ := hbodies name (hperm.mp hname) hint
    cases hof.symm.trans hof'
    exact hexhausts
  -- then these bodies, one after another, before what was pending
  obtain ⟨found₂, hrun, hfound₂⟩ := exists_search_append hexhausts hfound₁ pending
  refine ⟨found₂, (search_of_visit hscope hfold).trans hrun, hfound₂.congr fun name => ?_⟩
  rw [reaches_iff hscope, or_assoc]
  simp only [hperm, hmem]
  grind

theorem Traceable.exhausts {e : Datum} (h : m.Traceable t e)
    (hlevels : m.domain.HasIntegerLevels)
    (horder : ∀ s names, (order s names).Perm names) : m.Exhausts t order e := by
  -- the body of the function of each intermediate fluent that is met, those first that it
  -- leads to
  have hbodies : ∀ name : {name // m.Reaches t e name}, t.IsIntermediate name.1 →
      ∃ body, m.intermediateBody name.1 = .ok body ∧ m.Exhausts t order body := by
    intro name
    induction name using (wellFounded_leads h.known h.acyclic).induction with
    | _ name ih =>
      intro hint
      obtain ⟨body, hbody⟩ := exists_intermediateBody hlevels (h.defined name.1 name.2 hint)
      obtain ⟨names, hscope⟩ := h.scopes name.1 body name.2 hint hbody
      have hreach : ∀ name' ∈ names, m.Reaches t e name' := fun name' hname' =>
        name.2.trans hint hbody (.inScope hscope hname')
      refine ⟨body, hbody, exhausts_of_bodies horder hscope ?_ ?_⟩
      · intro name' hname'
        exact h.known name' (hreach name' hname')
      · intro name' hname' hint'
        exact ih ⟨name', hreach name' hname'⟩
          (.single ⟨hint, hint', body, names, hbody, hscope, hname'⟩) hint'
  obtain ⟨names, hscope⟩ := h.scope
  refine exhausts_of_bodies horder hscope ?_ ?_
  · intro name hname
    exact h.known name (.inScope hscope hname)
  · intro name hname
    exact hbodies ⟨name, .inScope hscope hname⟩

/-- The fluents that an expression leads to and that are not intermediate, each once. -/
def Collects (m : Model) (t : Tables) (e : Datum) (found : Table String PVariable) : Prop :=
  found.keys.Nodup ∧ ∀ name p, (name, p) ∈ found.entries ↔
    m.Reaches t e name ∧ t.fluent? name = some p ∧ p.isOf .intermediate = false

theorem Exhausts.exists_search {e : Datum} (h : m.Exhausts t order e) :
    ∃ s, m.search t order (.of e) = some (.ok s) ∧ m.Collects t e s.found := by
  obtain ⟨found, hsearch, hfound⟩ := h .empty _ [] holds_empty
  refine ⟨⟨found, []⟩, ?_, hfound.nodup, fun name p => ?_⟩
  · rw [Search.of, hsearch, search]
  · rw [Table.mem_entries_iff_find? hfound.nodup, hfound.find?_iff]
    simp only [false_or]

theorem Traceable.exists_search {e : Datum} (h : m.Traceable t e)
    (hlevels : m.domain.HasIntegerLevels) (horder : ∀ s names, (order s names).Perm names) :
    ∃ s, m.search t order (.of e) = some (.ok s) ∧ m.Collects t e s.found :=
  (h.exhausts hlevels horder).exists_search

/-- A search ends, whatever the order in which each scope is gone through, and finds the
    fluents that the expression leads to and that are not intermediate. -/
theorem dependencies_eq_reachable {e : Datum} (hlevels : m.domain.HasIntegerLevels)
    (h : m.Traceable t e) :
    (∃ found, m.dependencies t e = .ok found ∧ m.Collects t e found) ∧
      ∀ order : Search → List String → List String,
        (∀ s names, (order s names).Perm names) →
        ∃ s, m.search t order (.of e) = some (.ok s) ∧ m.Collects t e s.found := by
  have hends : ∀ order : Search → List String → List String,
      (∀ s names, (order s names).Perm names) →
      ∃ s, m.search t order (.of e) = some (.ok s) ∧ m.Collects t e s.found :=
    fun order horder => h.exists_search hlevels horder
  refine ⟨?_, hends⟩
  obtain ⟨s, hsearch, hcollects⟩ := hends (fun _ names => names) fun _ names => .refl names
  refine ⟨s.found, ?_, hcollects⟩
  rw [dependencies, hsearch]

/-- Two intermediate fluents that share a third, and a reward of both. -/
def sharedText : String := "domain d \x7b
  pvariables \x7b
    x : \x7b state-fluent, int, default = 0 \x7d;
    cost : \x7b non-fluent, int, default = 1 \x7d;
    base : \x7b interm-fluent, int, level = 1 \x7d;
    up : \x7b interm-fluent, int, level = 2 \x7d;
    down : \x7b interm-fluent, int, level = 2 \x7d;
  \x7d;
  cpfs \x7b x' = x; up = base + base; down = base - cost; base = x * x; \x7d;
  reward = up + down;
\x7d
non-fluents n \x7b domain = d; \x7d
instance i \x7b domain = d; \x7d"

/-- The reward depends on the state fluent and the constant below the intermediate ones. -/
theorem dependencies_of_sharedText :
    ∃ m t found, (Reading.ofText 1 sharedText).verdict = .model m ∧ m.build {} = .ok () t ∧
      m.domain.HasIntegerLevels ∧ m.Traceable t m.domain.reward ∧
      m.dependencies t m.domain.reward = .ok found ∧
      "x/0" ∈ found.keys ∧ "cost/0" ∈ found.keys ∧ "base/0" ∉ found.keys := by
  -- all that is needed of the text, in one reading of it
  have hread : ((Reading.ofText 1 sharedText).verdict.model?.bind fun m =>
      match m.build {} with
      | .ok _ t => some (m.domain.reward.scopeOf.toOption,
          (["base/0", "up/0", "down/0"].map fun name =>
            (m.intermediateBody name).toOption.bind fun body => body.scopeOf.toOption),
          (["x/0", "cost/0", "base/0", "up/0", "down/0"].map fun name =>
            (t.fluent? name).map fun p => p.isOf .intermediate),
          (m.domain.cpfsOf .intermediate .ok).toOption.map fun cpfs =>
            cpfs.map fun c => (c.name, c.cpf.functionBody.toOption.isSome),
          (m.domain.fluents .intermediate).toOption.map fun fluents =>
            fluents.entries.map fun entry => entry.2.level.className)
      | .error _ _ => none) =
      some (some ["down/0", "up/0"], [some ["x/0"], some ["base/0"], some ["base/0", "cost/0"]],
        [some false, some false, some true, some true, some true],
        some [("up/0", true), ("down/0", true), ("base/0", true)], some ["int", "int", "int"]) := by
    rw [sharedText, Reading.ofText_eq_ofScan 1 rfl]
    set_option synthInstance.maxSize 1000 in decide +kernel
  obtain ⟨m, hmodel, hview⟩ := Option.bind_eq_some_iff.mp hread
  cases hbuild : m.build {} with
  | error cause t => simp [hbuild] at hview
  | ok u t =>
    simp only [hbuild, List.map_cons, List.map_nil, Option.some.injEq, Prod.mk.injEq,
      List.cons.injEq, and_true, Option.bind_eq_some_iff, Option.map_eq_some_iff,
      toOption_eq_some] at hview
    obtain ⟨hreward, ⟨⟨base, hbase, hbaseScope⟩, ⟨up, hup, hupScope⟩, down, hdown, hdownScope⟩,
      ⟨⟨x, hx, hxKind⟩, ⟨cost, hcost, hcostKind⟩, ⟨pbase, hpbase, hpbaseKind⟩,
        ⟨pup, hpup, hpupKind⟩, pdown, hpdown, hpdownKind⟩,
      ⟨cpfs, hcpfs, hnames⟩, fluents, hfluents, hlevel⟩ := hview
    -- all levels are integers, and all intermediate fluents have functions
    have hlevels : m.domain.HasIntegerLevels := by
      intro fluents' name p hfluents' hp
      cases hfluents.symm.trans hfluents'
      have hclass : p.level.className ∈ ["int", "int", "int"] :=
        hlevel ▸ List.mem_map_of_mem (Table.mem_entries_of_find? hp)
      cases hl : p.level <;> simp_all [Datum.className]
    have hfunction : ∀ name ∈ ["up/0", "down/0", "base/0"], m.domain.HasFunction name := by
      intro name hname
      refine ⟨cpfs, hcpfs, ?_, fun c hc _ => ?_⟩
      · have hall := congrArg (List.map Prod.fst) hnames
        rw [List.map_map] at hall
        exact List.mem_map.mp (hall ▸ hname)
      · have hbody : (c.name, c.cpf.functionBody.toOption.isSome) ∈
            [("up/0", true), ("down/0", true), ("base/0", true)] :=
          hnames ▸ List.mem_map_of_mem hc
        have hsome : c.cpf.functionBody.toOption.isSome = true := by grind
        obtain ⟨body, hbody⟩ := Option.isSome_iff_exists.mp hsome
        exact ⟨body, toOption_eq_some.mp hbody⟩
    -- `base` comes before `up` and `down`, so no fluent leads back to itself
    have hranked : m.IsRanked t ["x/0", "cost/0", "base/0", "up/0", "down/0"] fun name =>
        if name = "base/0" then 1 else if name = "x/0" ∨ name = "cost/0" then 0 else 2 := by
      intro name hname
      simp only [List.mem_cons, List.not_mem_nil, or_false] at hname
      rcases hname with rfl | rfl | rfl | rfl | rfl
      · exact ⟨x, hx, by simp [hxKind]⟩
      · exact ⟨cost, hcost, by simp [hcostKind]⟩
      · exact ⟨pbase, hpbase, fun _ =>
          ⟨hfunction _ (by simp), base, _, hbase, hbaseScope, by simp⟩⟩
      · exact ⟨pup, hpup, fun _ => ⟨hfunction _ (by simp), up, _, hup, hupScope, by simp⟩⟩
      · exact ⟨pdown, hpdown, fun _ =>
          ⟨hfunction _ (by simp), down, _, hdown, hdownScope, by simp⟩⟩
    have htraceable : m.Traceable t m.domain.reward := hranked.traceable hreward (by simp)
    obtain ⟨⟨found, hfound, hnodup, hcollects⟩, -⟩ := dependencies_eq_reachable hlevels htraceable
    have hdown' : t.IsIntermediate "down/0" := ⟨pdown, hpdown, hpdownKind⟩
    have hbase' : t.IsIntermediate "base/0" := ⟨pbase, hpbase, hpbaseKind⟩
    refine ⟨m, t, found, Verdict.eq_model_of_model? hmodel, hbuild, hlevels, htraceable, hfound,
      List.mem_map.mpr ⟨_, (hcollects "x/0" x).mpr ⟨?_, hx, hxKind⟩, rfl⟩,
      List.mem_map.mpr ⟨_, (hcollects "cost/0" cost).mpr ⟨?_, hcost, hcostKind⟩, rfl⟩, ?_⟩
    · -- `x` through `down` and `base`
      exact .through hreward (by simp) hdown' hdown
        (.through hdownScope (by simp) hbase' hbase (.inScope hbaseScope (by simp)))
    · exact .through hreward (by simp) hdown' hdown (.inScope hdownScope (by simp))
    · -- `base` is itself intermediate
      intro hmem
      obtain ⟨⟨name, p⟩, hentry, hname⟩ := List.mem_map.mp hmem
      obtain ⟨-, hp, hkind⟩ := (hcollects name p).mp hentry
      obtain rfl : name = "base/0" := hname
      cases hpbase.symm.trans hp
      simp [hpbaseKind] at hkind

end Model

end Rddl
