/-
  Rddl/Proofs/Domain/Classification.lean
  ======================================
  **Which functions belong to which kind of fluents.**

  The functions of intermediate and of observation fluents are known by their own
  names.  Those of state fluents are known by their names without the last character
  of the functor, whatever that character is: besides the primed name `a'` of a state
  fluent `a` also `ab` counts.  `cpfs_classified` says exactly which functions each of
  the three lists has, when the lists share none, and when the one of the intermediate
  fluents exists at all: its levels must not be numbers and texts at once, because
  these have no order.
-/
import Mathlib.Data.List.Pairwise
import Rddl.Proofs.Domain.Declared

namespace Rddl

/-! ### Levels -/

namespace Datum

/-- The fluent that a datum declares, of whatever kind. -/
def fluent? : Datum → Option Fluent
  | .pvariable (.text name) _ _ params _ _ => some ⟨name, params.count⟩
  | _ => none

/-- The intermediate fluent that a datum declares, with its level. -/
def levelled? : Datum → Option (Fluent × Datum)
  | .pvariable (.text name) (.text spelling) _ params _ level =>
    if spelling = FluentKind.intermediate.spelling then some (⟨name, params.count⟩, level) else none
  | _ => none

end Datum

namespace Domain

def allDeclared (d : Domain) : List Fluent :=
  match d.pvariables with
  | .list ds => ds.filterMap Datum.fluent?
  | _ => []

def levels (d : Domain) : List (Fluent × Datum) :=
  match d.pvariables with
  | .list ds => ds.filterMap Datum.levelled?
  | _ => []

/-- Whether among the intermediate fluents with a function some have a number for a level
    and some a text. -/
def mixesLevels (d : Domain) : Bool :=
  d.levels.any (fun l => l.1 ∈ d.defined && l.2.isNumeric) &&
    d.levels.any (fun l => l.1 ∈ d.defined && !l.2.isNumeric)

/-- A list has exactly the functions of a domain whose fluents have a property. -/
def Selects (d : Domain) (cpfs : List NamedCpf) (p : Fluent → Prop) : Prop :=
  ∀ cpf, cpf ∈ cpfs.map NamedCpf.cpf ↔
    cpf ∈ d.functions ∧ ∃ f, cpf.definition? = some f ∧ p f

end Domain

/-! ### Sort keys -/

namespace Datum

theorem haveOrder_iff (keys : List (List Datum)) :
    haveOrder keys = true ↔ keys.Pairwise fun k l => (lessAll? k l).isSome = true := by
  induction keys with
  | nil => simp [haveOrder]
  | cons k ks ih => simp [haveOrder, ih]

theorem isSome_sortOn {α : Type} {key : α → List Datum} {xs : List α} :
    (∃ sorted, sortOn key xs = .ok sorted) ↔ haveOrder (xs.map key) = true := by
  unfold sortOn
  split <;> simp_all

theorem perm_of_sortOn {α : Type} {key : α → List Datum} {xs sorted : List α}
    (h : sortOn key xs = .ok sorted) : sorted.Perm xs := by
  unfold sortOn at h
  split at h
  · cases h
    exact perm_sortWith _ xs
  · simp at h

@[simp] theorem isNumeric_text (s : String) : (Datum.text s).isNumeric = false := rfl

theorem less?_of_isNumeric {x y : Datum} (hx : x.isNumeric = true) (hy : y.isNumeric = true) :
    less? x y = some (numericOrder .lt x y) := by
  cases x <;> simp [isNumeric] at hx <;> cases y <;> simp [isNumeric] at hy <;>
    simp [less?, isNumeric]

/-- A number and a text are different and have no order. -/
theorem less?_text_of_isNumeric {x : Datum} (hx : x.isNumeric = true) (s : String) :
    less? x (.text s) = none ∧ less? (.text s) x = none ∧ agrees x (.text s) = false ∧
      agrees (.text s) x = false := by
  cases x <;> simp_all [isNumeric, less?, agrees, numericOrder, point?]

end Datum

/-- A constant is a text or a number. -/
theorem Constant.datum_cases (k : Constant) :
    (∃ s, k.datum = .text s) ∨ k.datum.isNumeric = true := by
  cases k <;> simp [datum, Datum.isNumeric]

/-- Constants followed by names have an order if and only if both constants are numbers or
    both are texts. -/
theorem Datum.isSome_lessAll?_iff (k l : Constant) (s t : String) :
    (lessAll? [k.datum, .text s] [l.datum, .text t]).isSome = true ↔
      k.datum.isNumeric = l.datum.isNumeric := by
  have hnames : (lessAll? [.text s] [.text t]).isSome = true := by
    by_cases hst : s = t <;> simp [lessAll?, agrees, less?, hst]
  rw [lessAll?]
  rcases k.datum_cases with ⟨a, ha⟩ | hk
  · rcases l.datum_cases with ⟨b, hb⟩ | hl
    · by_cases hab : a = b <;> simp [ha, hb, agrees, less?, hab, hnames]
    · obtain ⟨-, hless, -, hagrees⟩ := less?_text_of_isNumeric hl a
      simp [ha, hless, hagrees, hl]
  · rcases l.datum_cases with ⟨b, hb⟩ | hl
    · obtain ⟨hless, -, hagrees, -⟩ := less?_text_of_isNumeric hk b
      simp [hb, hless, hagrees, hk]
    · by_cases hagrees : agrees k.datum l.datum = true <;>
        simp [hagrees, hnames, less?_of_isNumeric hk hl, hk, hl]

theorem Role.exists_of_kind_intermediate {r : Role} (h : r.kind = .intermediate) :
    ∃ level, r = .intermediate level := by
  cases r <;> simp_all [Role.kind]

/-- Items whose levels are constants can be sorted by level and name exactly when the levels
    are all numbers or all texts. -/
theorem Datum.haveOrder_iff_isNumeric {α : Type} {xs : List α} {level : α → Datum}
    {name : α → String} (hconstant : ∀ x ∈ xs, ∃ k : Constant, level x = k.datum) :
    haveOrder (xs.map fun x => [level x, .text (name x)]) = true ↔
      ∀ a ∈ xs, ∀ b ∈ xs, (level a).isNumeric = (level b).isNumeric := by
  have hpair : ∀ {a b}, a ∈ xs → b ∈ xs →
      ((lessAll? [level a, .text (name a)] [level b, .text (name b)]).isSome = true ↔
        (level a).isNumeric = (level b).isNumeric) := by
    intro a b ha hb
    obtain ⟨k, hk⟩ := hconstant a ha
    obtain ⟨l, hl⟩ := hconstant b hb
    rw [hk, hl]
    exact isSome_lessAll?_iff k l (name a) (name b)
  rw [haveOrder_iff, List.pairwise_map]
  constructor
  · intro hpairs a ha b hb
    -- the pairs of a list are all pairs, since the relation is symmetric and reflexive
    have hsymm : Std.Symm fun a b : α => (level a).isNumeric = (level b).isNumeric :=
      ⟨fun _ _ => Eq.symm⟩
    have hsame : xs.Pairwise fun a b => (level a).isNumeric = (level b).isNumeric :=
      hpairs.imp_of_mem fun ha hb => (hpair ha hb).mp
    refine hsame.forall_of_forall ?_ ha hb
    exact fun _ _ => rfl
  · intro hall
    exact List.pairwise_of_forall_mem_list fun a ha b hb => (hpair ha hb).mpr (hall a ha b hb)

/-! ### Selected functions -/

namespace Domain

theorem Selects.of_perm {d : Domain} {cpfs sorted : List NamedCpf} {p : Fluent → Prop}
    (h : d.Selects cpfs p) (hperm : sorted.Perm cpfs) : d.Selects sorted p := by
  intro cpf
  rw [(hperm.map NamedCpf.cpf).mem_iff]
  exact h cpf

/-- A selection by one property is one by another exactly when the defined fluents have
    both or none. -/
theorem Selects.iff_forall {d : Domain} {cpfs : List NamedCpf} {p q : Fluent → Prop}
    (h : d.Selects cpfs p) : d.Selects cpfs q ↔ ∀ f ∈ d.defined, p f ↔ q f := by
  constructor
  · intro h' f hf
    obtain ⟨cpf, hcpf, hdef⟩ := List.mem_filterMap.mp hf
    have hboth := (h cpf).symm.trans (h' cpf)
    simpa [hcpf, hdef] using hboth
  · intro hpq cpf
    rw [h cpf]
    refine and_congr_right fun hcpf => exists_congr fun f => and_congr_right fun hdef => ?_
    exact hpq f (List.mem_filterMap.mpr ⟨cpf, hcpf, hdef⟩)

/-- Two selections share no function exactly when no defined fluent has both properties. -/
theorem Selects.disjoint_iff {d : Domain} {cpfs cpfs' : List NamedCpf} {p q : Fluent → Prop}
    (h : d.Selects cpfs p) (h' : d.Selects cpfs' q) :
    (cpfs.map NamedCpf.cpf).Disjoint (cpfs'.map NamedCpf.cpf) ↔
      ∀ f ∈ d.defined, p f → ¬ q f := by
  constructor
  · intro hdisjoint f hf hp hq
    obtain ⟨cpf, hcpf, hdef⟩ := List.mem_filterMap.mp hf
    exact hdisjoint ((h cpf).mpr ⟨hcpf, f, hdef, hp⟩) ((h' cpf).mpr ⟨hcpf, f, hdef, hq⟩)
  · intro hnone cpf hcpf hcpf'
    obtain ⟨hmem, f, hdef, hp⟩ := (h cpf).mp hcpf
    obtain ⟨-, g, hdef', hq⟩ := (h' cpf).mp hcpf'
    obtain rfl : f = g := by simpa [hdef] using hdef'
    exact hnone f (List.mem_filterMap.mpr ⟨cpf, hmem, hdef⟩) hp hq

theorem intermediateCpfs_eq {d : Domain} {cpfs : List NamedCpf}
    (hcpfs : d.cpfsOf .intermediate .ok = .ok cpfs) :
    d.intermediateCpfs = Datum.sortOn (fun c => [c.fluent.level, .text c.name]) cpfs := by
  rw [intermediateCpfs, hcpfs]
  rfl

/-- Functions of intermediate fluents whose levels are constants can be sorted exactly when the
    levels are all numbers or all texts. -/
theorem exists_intermediateCpfs_iff_isNumeric {d : Domain} {cpfs : List NamedCpf}
    (hcpfs : d.cpfsOf .intermediate .ok = .ok cpfs)
    (hconstant : ∀ c ∈ cpfs, ∃ k : Constant, c.fluent.level = k.datum) :
    (∃ mids, d.intermediateCpfs = .ok mids) ↔
      ∀ a ∈ cpfs, ∀ b ∈ cpfs, a.fluent.level.isNumeric = b.fluent.level.isNumeric := by
  rw [intermediateCpfs_eq hcpfs, Datum.isSome_sortOn, Datum.haveOrder_iff_isNumeric hconstant]

namespace Declares

variable {d : Domain} {vars : List PVarDecl} {functions : List CpfDecl}

/-- The functions whose changed fluents are declared are selected. -/
theorem selects_cpfsOf (h : d.Declares vars functions) (kind : FluentKind)
    {change : String → Except Fault String} {changed : Fluent → Fluent}
    (hchange : ∀ f ∈ functions, change f.fluent.name = .ok (changed f.fluent).name)
    {cpfs : List NamedCpf} (hcpfs : d.cpfsOf kind change = .ok cpfs) :
    d.Selects cpfs fun f => changed f ∈ d.declared kind := by
  obtain ⟨table, htable⟩ : ∃ table, d.fluents kind = .ok table := ⟨_, h.fluents_eq kind⟩
  rw [h.cpfsOf_eq kind hchange htable, Except.ok.injEq] at hcpfs
  subst hcpfs
  intro cpf
  rw [h.functions_eq]
  constructor
  · intro hmem
    obtain ⟨named, hnamed, rfl⟩ := List.mem_map.mp hmem
    obtain ⟨f, hf, hfind⟩ := List.mem_filterMap.mp hnamed
    obtain ⟨p, hp, rfl⟩ := Option.map_eq_some_iff.mp hfind
    refine ⟨List.mem_map_of_mem hf, f.fluent, f.definition?_datum, ?_⟩
    exact (h.isSome_find?_iff htable).mp (by simp [hp])
  · rintro ⟨hmem, fl, hdef, hdeclared⟩
    obtain ⟨f, hf, rfl⟩ := List.mem_map.mp hmem
    -- a datum of a function defines one fluent
    obtain rfl : f.fluent = fl := by simpa [f.definition?_datum] using hdef
    obtain ⟨p, hp⟩ := Option.isSome_iff_exists.mp
      ((h.isSome_find?_iff htable).mpr hdeclared)
    refine List.mem_map.mpr ⟨⟨f.fluent.name, f.datum, p⟩, ?_, rfl⟩
    exact List.mem_filterMap.mpr ⟨f, hf, by simp [hp]⟩

theorem allDeclared_eq (h : d.Declares vars functions) :
    d.allDeclared = vars.map PVarDecl.fluent := by
  simp only [allDeclared, h.pvariables, List.filterMap_map]
  rw [← List.filterMap_eq_map]
  congr 1
  funext v
  cases hparams : v.params <;>
    simp [PVarDecl.pvariable, PVariable.datum, Datum.fluent?, hparams, Datum.count, Datum.texts,
      PVarDecl.fluent]

theorem mem_levels_iff (h : d.Declares vars functions) {f : Fluent} {x : Datum} :
    (f, x) ∈ d.levels ↔
      ∃ v ∈ vars, ∃ k, v.role = .intermediate k ∧ v.fluent = f ∧ k.datum = x := by
  simp only [levels, h.pvariables, List.filterMap_map, List.mem_filterMap, Function.comp]
  refine exists_congr fun v => and_congr_right fun _ => ?_
  cases hrole : v.role <;> cases hparams : v.params <;>
    simp [PVarDecl.pvariable, PVariable.datum, Datum.levelled?, hrole, hparams, Role.kind,
      Role.level, FluentKind.spelling, Datum.count, Datum.texts, PVarDecl.fluent]

/-- The functions of intermediate fluents and the levels of these. -/
theorem exists_level_iff (h : d.Declares vars functions) (hdistinct : d.allDeclared.Nodup)
    {cpfs : List NamedCpf} (hcpfs : d.cpfsOf .intermediate .ok = .ok cpfs) {x : Datum} :
    (∃ c ∈ cpfs, c.fluent.level = x) ↔ ∃ f ∈ d.defined, (f, x) ∈ d.levels := by
  obtain ⟨table, htable⟩ : ∃ table, d.fluents .intermediate = .ok table :=
    ⟨_, h.fluents_eq .intermediate⟩
  rw [h.cpfsOf_eq .intermediate (fun _ _ => rfl) htable, Except.ok.injEq] at hcpfs
  subst hcpfs
  rw [h.defined_eq]
  constructor
  · rintro ⟨c, hc, rfl⟩
    obtain ⟨f, hf, hfind⟩ := List.mem_filterMap.mp hc
    obtain ⟨p, hp, rfl⟩ := Option.map_eq_some_iff.mp hfind
    obtain ⟨v, hv, hkind, hfluent, rfl⟩ := h.exists_of_find?_eq_some htable hp
    obtain ⟨k, hk⟩ := Role.exists_of_kind_intermediate hkind
    refine ⟨f.fluent, List.mem_map_of_mem hf, h.mem_levels_iff.mpr ⟨v, hv, k, hk, hfluent, ?_⟩⟩
    simp [PVarDecl.pvariable, hk, Role.level]
  · rintro ⟨fl, hfl, hlevel⟩
    obtain ⟨f, hf, rfl⟩ := List.mem_map.mp hfl
    obtain ⟨v, hv, k, hk, hfluent, rfl⟩ := h.mem_levels_iff.mp hlevel
    have hdeclared : f.fluent ∈ d.declared .intermediate := by
      rw [h.declared_eq]
      refine List.mem_map.mpr ⟨v, List.mem_filter.mpr ⟨hv, ?_⟩, hfluent⟩
      simp [hk, Role.kind]
    obtain ⟨p, hp⟩ := Option.isSome_iff_exists.mp
      ((h.isSome_find?_iff htable).mpr hdeclared)
    obtain ⟨v', hv', -, hfluent', rfl⟩ := h.exists_of_find?_eq_some htable hp
    -- no two declarations have one fluent
    obtain rfl : v' = v := by
      rw [h.allDeclared_eq] at hdistinct
      exact List.inj_on_of_nodup_map hdistinct hv' hv (hfluent'.trans hfluent.symm)
    refine ⟨⟨f.fluent.name, f.datum, v'.pvariable⟩, ?_, ?_⟩
    · exact List.mem_filterMap.mpr ⟨f, hf, by simp [hp]⟩
    · simp [PVarDecl.pvariable, hk, Role.level]

/-- The functions of intermediate fluents can be sorted exactly when their levels are not
    mixed. -/
theorem exists_intermediateCpfs_iff (h : d.Declares vars functions)
    (hdistinct : d.allDeclared.Nodup) :
    (∃ mids, d.intermediateCpfs = .ok mids) ↔ d.mixesLevels = false := by
  obtain ⟨table, htable⟩ : ∃ table, d.fluents .intermediate = .ok table :=
    ⟨_, h.fluents_eq .intermediate⟩
  obtain ⟨cpfs, hcpfs⟩ : ∃ cpfs, d.cpfsOf .intermediate .ok = .ok cpfs :=
    ⟨_, h.cpfsOf_eq .intermediate (fun _ _ => rfl) htable⟩
  have hlevel : ∀ x, (∃ c ∈ cpfs, c.fluent.level = x) ↔ ∃ f ∈ d.defined, (f, x) ∈ d.levels :=
    fun x => h.exists_level_iff hdistinct hcpfs
  have hconstant : ∀ c ∈ cpfs, ∃ k : Constant, c.fluent.level = k.datum := by
    intro c hc
    obtain ⟨f, -, hmem⟩ := (hlevel c.fluent.level).mp ⟨c, hc, rfl⟩
    obtain ⟨v, -, k, -, -, hk⟩ := h.mem_levels_iff.mp hmem
    exact ⟨k, hk.symm⟩
  rw [exists_intermediateCpfs_iff_isNumeric hcpfs hconstant, ← Bool.not_eq_true, mixesLevels,
    Bool.and_eq_true, List.any_eq_true, List.any_eq_true]
  simp only [Bool.and_eq_true, decide_eq_true_eq, Bool.not_eq_true']
  constructor
  · rintro hsame ⟨⟨⟨f, x⟩, hx, hf, hnumber⟩, ⟨g, y⟩, hy, hg, htext⟩
    obtain ⟨a, ha, rfl⟩ := (hlevel x).mpr ⟨f, hf, hx⟩
    obtain ⟨b, hb, rfl⟩ := (hlevel y).mpr ⟨g, hg, hy⟩
    have hboth := hsame a ha b hb
    simp [hnumber, htext] at hboth
  · intro hmixed a ha b hb
    obtain ⟨f, hf, hx⟩ := (hlevel _).mp ⟨a, ha, rfl⟩
    obtain ⟨g, hg, hy⟩ := (hlevel _).mp ⟨b, hb, rfl⟩
    -- of two levels that differ in this, one is a number and the other one is not
    by_contra hne
    rcases Bool.eq_false_or_eq_true a.fluent.level.isNumeric with hnumber | htext
    · refine hmixed ⟨⟨_, hx, hf, hnumber⟩, _, hy, hg, ?_⟩
      simpa [hnumber] using Ne.symm hne
    · refine hmixed ⟨⟨_, hy, hg, ?_⟩, _, hx, hf, htext⟩
      simpa [htext] using Ne.symm hne

theorem selects_intermediateCpfs (h : d.Declares vars functions) {mids : List NamedCpf}
    (hmids : d.intermediateCpfs = .ok mids) :
    d.Selects mids fun f => f ∈ d.declared .intermediate := by
  rw [intermediateCpfs, except_bind_eq_ok] at hmids
  obtain ⟨cpfs, hcpfs, hsort⟩ := hmids
  exact (h.selects_cpfsOf .intermediate (fun _ _ => rfl) hcpfs).of_perm
    (Datum.perm_of_sortOn hsort)

theorem exists_observationCpfs (h : d.Declares vars functions) :
    ∃ observations, d.observationCpfs = .ok observations ∧
      d.Selects observations fun f => f ∈ d.declared .observation := by
  obtain ⟨table, htable⟩ : ∃ table, d.fluents .observation = .ok table :=
    ⟨_, h.fluents_eq .observation⟩
  have hcpfs := h.cpfsOf_eq .observation (fun _ _ => rfl) htable
  refine ⟨_, by rw [observationCpfs, hcpfs]; rfl, ?_⟩
  exact (h.selects_cpfsOf .observation (fun _ _ => rfl) hcpfs).of_perm
    (perm_sortWith _ _)

theorem exists_stateCpfs (h : d.Declares vars functions) :
    ∃ states, d.stateCpfs = .ok states ∧
      d.Selects states fun f => f.shortened ∈ d.declared .state := by
  obtain ⟨table, htable⟩ : ∃ table, d.fluents .state = .ok table := ⟨_, h.fluents_eq .state⟩
  have hcpfs := h.cpfsOf_eq .state (fun f hf => h.unprimed_function hf) htable
  refine ⟨_, by rw [stateCpfs, hcpfs]; rfl, ?_⟩
  exact (h.selects_cpfsOf .state (fun f hf => h.unprimed_function hf) hcpfs).of_perm
    (perm_sortWith _ _)

/-- No fluent is declared as intermediate and as an observation when all are different. -/
theorem notMem_declared_of_ne (h : d.Declares vars functions) (hdistinct : d.allDeclared.Nodup)
    {kind kind' : FluentKind} (hne : kind ≠ kind') {f : Fluent} (hf : f ∈ d.declared kind) :
    f ∉ d.declared kind' := by
  intro hf'
  rw [h.declared_eq] at hf hf'
  obtain ⟨v, hv, rfl⟩ := List.mem_map.mp hf
  obtain ⟨v', hv', hfluent⟩ := List.mem_map.mp hf'
  simp only [List.mem_filter, decide_eq_true_eq] at hv hv'
  rw [h.allDeclared_eq] at hdistinct
  obtain rfl : v' = v := List.inj_on_of_nodup_map hdistinct hv'.1 hv.1 hfluent
  exact hne (hv.2.symm.trans hv'.2)

end Declares

/-- **Which functions belong to which kind of fluents.**  The domain was read from a text,
    and its variables are all different.

    * The functions of observation fluents are those with a declared name.
    * The functions of state fluents are those whose functor, without its last character,
      is that of a state fluent.  They are the primed ones exactly when no other character
      stands there.
    * The functions of intermediate fluents are those with a declared name.  They can be
      listed exactly when their levels are not mixed.
    * Two of the lists share a function exactly when a defined intermediate or observation
      fluent has, without its last character, the name of a state fluent. -/
theorem cpfs_classified {line : Nat} {text : String} {m : Model}
    (h : (Reading.ofText line text).verdict = .model m)
    (hdistinct : m.domain.allDeclared.Nodup) :
    ∃ states observations, m.domain.stateCpfs = .ok states ∧
      m.domain.observationCpfs = .ok observations ∧
      m.domain.Selects observations (fun f => f ∈ m.domain.declared .observation) ∧
      m.domain.Selects states (fun f => f.shortened ∈ m.domain.declared .state) ∧
      (m.domain.Selects states (fun f => ∃ g ∈ m.domain.declared .state, f = g.next) ↔
        ∀ f ∈ m.domain.defined, f.shortened ∈ m.domain.declared .state →
          f = f.shortened.next) ∧
      ((states.map NamedCpf.cpf).Disjoint (observations.map NamedCpf.cpf) ↔
        ∀ f ∈ m.domain.defined, f.shortened ∈ m.domain.declared .state →
          f ∉ m.domain.declared .observation) ∧
      ((∃ mids, m.domain.intermediateCpfs = .ok mids) ↔ m.domain.mixesLevels = false) ∧
      ∀ mids, m.domain.intermediateCpfs = .ok mids →
        m.domain.Selects mids (fun f => f ∈ m.domain.declared .intermediate) ∧
        (mids.map NamedCpf.cpf).Disjoint (observations.map NamedCpf.cpf) ∧
        ((states.map NamedCpf.cpf).Disjoint (mids.map NamedCpf.cpf) ↔
          ∀ f ∈ m.domain.defined, f.shortened ∈ m.domain.declared .state →
            f ∉ m.domain.declared .intermediate) := by
  -- each list is a selection, and what the lists share follows from the properties selected
  obtain ⟨vars, functions, hdecl⟩ := declares_of_verdict h
  obtain ⟨states, hstates, hselects⟩ := hdecl.exists_stateCpfs
  obtain ⟨observations, hobservations, hselects'⟩ := hdecl.exists_observationCpfs
  refine ⟨states, observations, hstates, hobservations, hselects', hselects, ?_,
    hselects.disjoint_iff hselects', hdecl.exists_intermediateCpfs_iff hdistinct, ?_⟩
  · rw [hselects.iff_forall]
    refine forall_congr' fun f => imp_congr_right fun _ => ?_
    constructor
    · intro hiff hmem
      obtain ⟨g, -, rfl⟩ := hiff.mp hmem
      rw [Fluent.shortened_next]
    · intro hprimed
      refine ⟨fun hmem => ⟨f.shortened, hmem, hprimed hmem⟩, ?_⟩
      rintro ⟨g, hg, rfl⟩
      simpa using hg
  · intro mids hmids
    have hmid := hdecl.selects_intermediateCpfs hmids
    refine ⟨hmid, (hmid.disjoint_iff hselects').mpr fun f _ hf => ?_, hselects.disjoint_iff hmid⟩
    exact hdecl.notMem_declared_of_ne hdistinct (by decide) hf

/-- A domain with a state fluent `a`, an intermediate fluent `ab` and an observation, and
    with a function for each. -/
def lengthenedText : String := "domain d \x7b
  pvariables \x7b
    a : \x7b state-fluent, bool, default = true \x7d;
    ab : \x7b interm-fluent, bool, level = 1 \x7d;
    seen : \x7b observ-fluent, bool \x7d;
  \x7d;
  cpfs \x7b a' = ab; ab = a; seen = a; \x7d;
  reward = 1;
\x7d
non-fluents n \x7b \x7d
instance i \x7b \x7d"

/-- The function of the intermediate fluent `ab` counts as one of the state fluent `a`, too. -/
theorem cpfs_of_lengthenedText :
    ∃ m, (Reading.ofText 1 lengthenedText).verdict = .model m ∧
      m.domain.allDeclared = [⟨"a", 0⟩, ⟨"ab", 0⟩, ⟨"seen", 0⟩] ∧
      ∃ states mids, m.domain.stateCpfs = .ok states ∧ m.domain.intermediateCpfs = .ok mids ∧
        ¬ m.domain.Selects states (fun f => ∃ g ∈ m.domain.declared .state, f = g.next) ∧
        ¬ (states.map NamedCpf.cpf).Disjoint (mids.map NamedCpf.cpf) := by
  have hread : ((Reading.ofText 1 lengthenedText).verdict.model?.map fun m =>
      (m.domain.allDeclared, m.domain.declared .state, m.domain.declared .intermediate,
        m.domain.defined, m.domain.mixesLevels)) =
      some ([⟨"a", 0⟩, ⟨"ab", 0⟩, ⟨"seen", 0⟩], [⟨"a", 0⟩], [⟨"ab", 0⟩],
        [⟨"a'", 0⟩, ⟨"ab", 0⟩, ⟨"seen", 0⟩], false) := by
    rw [lengthenedText, Reading.ofText_eq_ofScan 1 rfl]
    decide +kernel
  obtain ⟨m, hmodel, hview⟩ := Option.map_eq_some_iff.mp hread
  simp only [Prod.mk.injEq] at hview
  obtain ⟨hall, hstate, hmid, hdefined, hlevels⟩ := hview
  have hverdict := Verdict.eq_model_of_model? hmodel
  obtain ⟨states, observations, hstates, -, -, -, hprimed, -, hmids, hrest⟩ :=
    cpfs_classified hverdict (by rw [hall]; decide)
  -- all levels are of one sort, so the intermediate functions can be sorted
  obtain ⟨mids, hmids⟩ := hmids.mpr hlevels
  obtain ⟨-, -, hdisjoint⟩ := hrest mids hmids
  refine ⟨m, hverdict, hall, states, mids, hstates, hmids, ?_, ?_⟩
  · rw [hprimed, hdefined, hstate]
    decide
  · rw [hdisjoint, hdefined, hstate, hmid]
    decide

end Domain

end Rddl
