/-
  Rddl/Proofs/Domain/Ordering.lean
  ================================
  **The orders of state fluents in the current and in the next state.**

  State fluents are sorted by their names, and so are the functions of the next
  state, whose names have a prime before the slash.  The slash stands above the hyphen
  in the order of characters and the prime below it, so the two orders can differ:
  they agree exactly when no functor goes on from another with a hyphen
  (`state_orderings_aligned_iff`).
-/
import Mathlib.Data.List.Pairwise
import Rddl.Proofs.Domain.Declared

namespace Rddl

/-! ### Characters of names -/

namespace Lexeme

theorem toNat_of_isAlphanum {c : Char} (h : c.isAlphanum = true) : 48 ≤ c.toNat := by
  unfold Char.isAlphanum Char.isAlpha Char.isUpper Char.isLower Char.isDigit at h
  simp only [Bool.or_eq_true, Bool.and_eq_true, decide_eq_true_eq, UInt32.le_iff_toNat_le] at h
  have : c.toNat = c.val.toNat := rfl
  have : 'A'.val.toNat = 65 := rfl
  have : 'a'.val.toNat = 97 := rfl
  have : '0'.val.toNat = 48 := rfl
  omega

theorem char_lt_iff {a b : Char} : a < b ↔ a.toNat < b.toNat := UInt32.lt_iff_toNat_lt

/-- A name character stands above the prime, and above the slash unless it is a hyphen. -/
theorem lt_of_isNameChar {c : Char} (h : isNameChar c = true) :
    '\'' < c ∧ (c ≠ '-' → '/' < c) := by
  simp only [isNameChar, Bool.or_eq_true, decide_eq_true_eq] at h
  rcases h with (h | rfl) | rfl
  · have hnat := toNat_of_isAlphanum h
    have hprime : '\''.toNat = 39 := rfl
    have hslash : '/'.toNat = 47 := rfl
    simp only [char_lt_iff]
    exact ⟨by omega, fun _ => by omega⟩
  · exact ⟨by decide, fun hne => absurd rfl hne⟩
  · exact ⟨by decide, fun _ => by decide⟩

end Lexeme

/-! ### Names with and without a prime -/

theorem append_lt_append_iff (u s t : List Char) : u ++ s < u ++ t ↔ s < t := by
  induction u with
  | nil => rfl
  | cons c u ih => simp [ih]

/-- A functor and one that goes on from it otherwise than with a hyphen: the shorter one
    comes first with a slash behind it if and only if it does with a prime. -/
theorem slash_lt_iff_prime_lt {v s t : List Char} (hv : Lexeme.isIdentTail v = true)
    (hhyphen : v.head? ≠ some '-') :
    ('/' :: s < v ++ '/' :: t ↔ '\'' :: '/' :: s < v ++ '\'' :: '/' :: t) ∧
      (v ++ '/' :: t < '/' :: s ↔ v ++ '\'' :: '/' :: t < '\'' :: '/' :: s) := by
  cases v with
  | nil => simp
  | cons c v =>
    simp only [Lexeme.isIdentTail, Bool.or_eq_true, Bool.and_eq_true, beq_iff_eq,
      List.isEmpty_iff] at hv
    rcases hv with ⟨hc, -⟩ | ⟨rfl, rfl⟩
    · obtain ⟨hprime, hslash⟩ := Lexeme.lt_of_isNameChar hc
      have hslash := hslash (by simpa using hhyphen)
      simp [List.cons_lt_cons_iff, hprime, hslash, hprime.ne, hslash.ne, hprime.ne', hslash.ne',
        hprime.not_gt, hslash.not_gt]
    · simp [List.cons_lt_cons_iff]

theorem isIdentTail_of_cons {c : Char} {cs : List Char}
    (h : Lexeme.isIdentTail (c :: cs) = true) : Lexeme.isIdentTail cs = true := by
  simp only [Lexeme.isIdentTail, Bool.or_eq_true, Bool.and_eq_true, List.isEmpty_iff] at h
  rcases h with ⟨-, hcs⟩ | ⟨-, rfl⟩
  · exact hcs
  · rfl

theorem primed_lt_iff {u v s t : List Char} (hu : Lexeme.isIdentTail u = true)
    (hv : Lexeme.isIdentTail v = true) (huv : ¬ u ++ ['-'] <+: v) (hvu : ¬ v ++ ['-'] <+: u) :
    u ++ '/' :: s < v ++ '/' :: t ↔ u ++ '\'' :: '/' :: s < v ++ '\'' :: '/' :: t := by
  induction u generalizing v with
  | nil =>
    have hhyphen : v.head? ≠ some '-' := by
      intro hhead
      obtain ⟨rest, rfl⟩ := List.head?_eq_some_iff.mp hhead
      exact huv ⟨rest, rfl⟩
    exact (slash_lt_iff_prime_lt hv hhyphen).1
  | cons a u ih =>
    cases v with
    | nil =>
      have hhyphen : (a :: u).head? ≠ some '-' := by
        intro hhead
        obtain ⟨rest, hrest⟩ := List.head?_eq_some_iff.mp hhead
        exact hvu ⟨rest, hrest.symm⟩
      exact (slash_lt_iff_prime_lt hu hhyphen).2
    | cons b v =>
      -- the first characters decide unless they are the same
      by_cases hab : a = b
      · subst hab
        simp only [List.cons_append, List.cons_prefix_cons, true_and] at huv hvu
        simpa using ih (isIdentTail_of_cons hu) (isIdentTail_of_cons hv) huv hvu
      · simp [List.cons_lt_cons_iff, hab]

namespace Fluent

/-- Whether the functor of the second fluent goes on from that of the first with a hyphen. -/
def extendsByHyphen (f g : Fluent) : Bool :=
  (f.functor.toList ++ ['-']).isPrefixOf g.functor.toList

/-- The names of two fluents are in order, both in the current and in the next state. -/
def Before (f g : Fluent) : Prop := f.name ≤ g.name ∧ f.next.name ≤ g.next.name

theorem toList_name_next (f : Fluent) :
    f.next.name.toList = f.functor.toList ++ '\'' :: '/' :: (toString f.arity).toList := by
  simp [name, next]

/-- Without hyphens a prime does not change the order of names. -/
theorem next_name_lt_iff {f g : Fluent} (hf : Lexeme.isIdent f.functor.toList = true)
    (hg : Lexeme.isIdent g.functor.toList = true) (hfg : f.extendsByHyphen g = false)
    (hgf : g.extendsByHyphen f = false) : f.next.name < g.next.name ↔ f.name < g.name := by
  simp only [extendsByHyphen, ← Bool.not_eq_true, List.isPrefixOf_iff_prefix] at hfg hgf
  rw [String.lt_iff_toList_lt, String.lt_iff_toList_lt, toList_name_next, toList_name_next,
    toList_name, toList_name]
  exact (primed_lt_iff (Lexeme.isIdentTail_of_isIdent hf) (Lexeme.isIdentTail_of_isIdent hg)
    hfg hgf).symm

/-- With a hyphen a prime turns the order of two names around. -/
theorem name_lt_of_extendsByHyphen {f g : Fluent} (h : f.extendsByHyphen g = true) :
    g.name < f.name ∧ f.next.name < g.next.name := by
  obtain ⟨rest, hrest⟩ := List.isPrefixOf_iff_prefix.mp h
  constructor
  · rw [String.lt_iff_toList_lt, toList_name, toList_name, ← hrest]
    simp only [List.append_assoc, append_lt_append_iff]
    simp [List.cons_lt_cons_iff]
  · rw [String.lt_iff_toList_lt, toList_name_next, toList_name_next, ← hrest]
    simp only [List.append_assoc, append_lt_append_iff]
    simp [List.cons_lt_cons_iff]

end Fluent

/-! ### Sorting with and without a prime -/

section Sorted

variable {fs : List Fluent}

theorem pairwise_name_sortWith (fs : List Fluent) :
    (sortWith (fun f g => decide (f.name ≤ g.name)) fs).Pairwise fun f g => f.name ≤ g.name := by
  have hsorted := pairwise_sortNames (fs.map Fluent.name)
  rw [← map_sortWith_name, List.pairwise_map] at hsorted
  exact hsorted

/-- Fluents sorted by name are sorted by their primed names exactly when no functor goes on
    from another with a hyphen. -/
theorem pairwise_next_name_iff (hident : ∀ f ∈ fs, Lexeme.isIdent f.functor.toList = true) :
    ((sortWith (fun f g => decide (f.name ≤ g.name)) fs).Pairwise
      fun f g => f.next.name ≤ g.next.name) ↔
      ∀ f ∈ fs, ∀ g ∈ fs, f.extendsByHyphen g = false := by
  have hmem : ∀ f, f ∈ sortWith (fun f g => decide (f.name ≤ g.name)) fs ↔ f ∈ fs :=
    fun f => (perm_sortWith _ fs).mem_iff
  have hsorted := pairwise_name_sortWith fs
  constructor
  · intro hnext f hf g hg
    rw [← Bool.not_eq_true]
    intro hext
    obtain ⟨hname, hprimed⟩ := Fluent.name_lt_of_extendsByHyphen hext
    -- of two fluents one stands before the other, and then both of its names do
    have hpairs : (sortWith (fun f g => decide (f.name ≤ g.name)) fs).Pairwise
        fun f g => f.Before g ∨ g.Before f := (hsorted.and hnext).imp .inl
    have hsymm : Std.Symm fun f g : Fluent => f.Before g ∨ g.Before f := ⟨fun _ _ => Or.symm⟩
    have hboth := hpairs.forall_of_forall (fun _ _ => .inl ⟨le_refl _, le_refl _⟩)
      ((hmem f).mpr hf) ((hmem g).mpr hg)
    rcases hboth with hfg | hgf
    · exact absurd hname (not_lt.mpr hfg.1)
    · exact absurd hprimed (not_lt.mpr hgf.2)
  · intro hhyphen
    refine hsorted.imp_of_mem fun {f g} hf hg hle => ?_
    have hf := (hmem f).mp hf
    have hg := (hmem g).mp hg
    rw [← not_lt] at hle ⊢
    rwa [Fluent.next_name_lt_iff (hident g hg) (hident f hf) (hhyphen g hg f hf)
      (hhyphen f hf g hg)]

/-- The sorted primed names are the primes of the sorted names exactly when no functor goes
    on from another with a hyphen. -/
theorem sortNames_next_eq_iff (hident : ∀ f ∈ fs, Lexeme.isIdent f.functor.toList = true) :
    sortNames (fs.map fun f => f.next.name) =
        (sortWith (fun f g => decide (f.name ≤ g.name)) fs).map (fun f => f.next.name) ↔
      ∀ f ∈ fs, ∀ g ∈ fs, f.extendsByHyphen g = false := by
  rw [← pairwise_next_name_iff hident]
  constructor
  · intro heq
    have hsorted := pairwise_sortNames (fs.map fun f => f.next.name)
    rwa [heq, List.pairwise_map] at hsorted
  · intro hsorted
    exact sortNames_eq_of_perm ((perm_sortWith _ fs).symm.map _) (List.pairwise_map.mpr hsorted)

end Sorted

/-! ### The orders of a domain -/

namespace Domain.Declares

variable {d : Domain} {vars : List PVarDecl} {functions : List CpfDecl}

/-- The current state is ordered by name. -/
theorem ordering_state_eq (h : d.Declares vars functions) (hdistinct : (d.declared .state).Nodup) :
    d.ordering .state = .ok (sortNames ((d.declared .state).map Fluent.name)) := by
  have hnames : ((d.declared .state).map Fluent.name).Nodup :=
    hdistinct.map Fluent.name_injective
  rw [ordering, h.fluents_eq]
  rw [h.declared_eq] at hnames ⊢
  simp only [bind, Except.bind, Table.keys]
  rw [List.map_map] at hnames
  rw [Table.entries_ofList (by rwa [List.map_map]), List.map_map, List.map_map]
  rfl

/-- Names correspond position by position when the primes of the one list are the other. -/
theorem aligned_iff (h : d.Declares vars functions) {fs : List Fluent} {next : List String}
    (hfs : ∀ f ∈ fs, f ∈ d.declared .state) (hlength : next.length = fs.length) :
    (∀ i (hi : i < (fs.map Fluent.name).length) (hi' : i < next.length),
      FluentName.primed (fs.map Fluent.name)[i] = .ok next[i] ∧
        FluentName.unprimed next[i] = .ok (fs.map Fluent.name)[i]) ↔
      next = fs.map fun f => f.next.name := by
  constructor
  · intro haligned
    refine List.ext_getElem (by simpa using hlength) fun i hi hi' => ?_
    have hi : i < fs.length := by simpa using hi'
    have hprimed := (haligned i (by simpa using hi) (by omega)).1
    -- a declared functor has no slash, so a name is primed right behind it
    have hslash := h.slash_notMem_declared (hfs fs[i] (List.getElem_mem hi))
    rw [List.getElem_map, Fluent.primed_name hslash, Except.ok.injEq] at hprimed
    rw [List.getElem_map, hprimed]
  · rintro rfl i hi hi'
    have hi : i < fs.length := by simpa using hi
    have hslash := h.slash_notMem_declared (hfs fs[i] (List.getElem_mem hi))
    -- the primed functor has no slash either, and is not empty
    have hslash' : '/' ∉ fs[i].next.functor.toList := by simp [Fluent.next, hslash]
    have hne : fs[i].next.functor.toList ≠ [] := by simp [Fluent.next]
    rw [List.getElem_map, List.getElem_map, Fluent.primed_name hslash,
      Fluent.unprimed_name hslash' hne, Fluent.shortened_next]
    exact ⟨rfl, rfl⟩

/-- The next state has every function whose functor, without its last character, is that of
    a state fluent. -/
theorem nextStateOrdering_eq (h : d.Declares vars functions) :
    d.nextStateOrdering = .ok (sortNames
      ((d.defined.filter fun f => f.shortened ∈ d.declared .state).map Fluent.name)) := by
  obtain ⟨table, htable⟩ : ∃ table, d.fluents .state = .ok table := ⟨_, h.fluents_eq .state⟩
  have hcpfs := h.cpfsOf_eq .state (fun f hf => h.unprimed_function hf) htable
  rw [nextStateOrdering, stateCpfs, hcpfs]
  simp only [bind, Except.bind, map_sortWith_name, h.defined_eq, List.map_filterMap]
  congr 2
  rw [List.filter_map, List.map_map, ← List.filterMap_eq_map, ← List.filterMap_eq_filter,
    List.filterMap_filterMap]
  refine List.filterMap_congr fun f hf => ?_
  have hfind := h.isSome_find?_iff htable (f := f.fluent.shortened)
  by_cases hmem : f.fluent.shortened ∈ d.declared .state
  · obtain ⟨p, hp⟩ := Option.isSome_iff_exists.mp (hfind.mpr hmem)
    simp [hp, hmem, Option.guard]
  · have hnone := Option.not_isSome_iff_eq_none.mp fun hsome => hmem (hfind.mp hsome)
    simp [hnone, hmem, Option.guard]

end Domain.Declares

/-- **When the current and the next state are ordered alike.**  In a domain that was read
    from a text, with different state fluents and one function for each of them, both
    orders have the same length, and they correspond position by position if and only if
    no functor of a state fluent goes on from that of another with a hyphen. -/
theorem Domain.state_orderings_aligned_iff {line : Nat} {text : String} {m : Model}
    (h : (Reading.ofText line text).verdict = .model m)
    (hdistinct : (m.domain.declared .state).Nodup)
    (hdefined : m.domain.defined.Perm ((m.domain.declared .state).map Fluent.next)) :
    ∃ current next, m.domain.ordering .state = .ok current ∧
      m.domain.nextStateOrdering = .ok next ∧ next.length = current.length ∧
      ((∀ i (hi : i < current.length) (hi' : i < next.length),
        FluentName.primed current[i] = .ok next[i] ∧
          FluentName.unprimed next[i] = .ok current[i]) ↔
        ∀ f ∈ m.domain.declared .state, ∀ g ∈ m.domain.declared .state,
          f.extendsByHyphen g = false) := by
  obtain ⟨vars, functions, hdecl⟩ := declares_of_verdict h
  -- every function is one of the next state
  have hall : m.domain.defined.filter (fun f => f.shortened ∈ m.domain.declared .state) =
      m.domain.defined := by
    refine List.filter_eq_self.mpr fun f hf => ?_
    obtain ⟨g, hg, rfl⟩ := List.mem_map.mp (hdefined.mem_iff.mp hf)
    simpa using hg
  have hnames : (m.domain.defined.map Fluent.name).Perm
      ((m.domain.declared .state).map fun f => f.next.name) := by
    simpa [Function.comp_def] using hdefined.map Fluent.name
  have hnext : sortNames (m.domain.defined.map Fluent.name) =
      sortNames ((m.domain.declared .state).map fun f => f.next.name) :=
    sortNames_eq_of_perm (hnames.trans (perm_sortWith _ _).symm) (pairwise_sortNames _)
  refine ⟨_, _, hdecl.ordering_state_eq hdistinct, hdecl.nextStateOrdering_eq, ?_, ?_⟩
  · simp only [hall, sortNames, (perm_sortWith _ _).length_eq, hnames.length_eq, List.length_map]
  · rw [hall, hnext, ← sortNames_next_eq_iff fun f hf => hdecl.isIdent_declared hf]
    simp only [← map_sortWith_name Fluent.name]
    refine hdecl.aligned_iff (fun f hf => (perm_sortWith _ _).mem_iff.mp hf) ?_
    simp [sortNames, (perm_sortWith _ _).length_eq]

/-- A domain with the state fluents `a` and `a-b`, and a function for each. -/
def hyphenatedText : String := "domain d \x7b
  pvariables \x7b
    a : \x7b state-fluent, bool, default = true \x7d;
    a-b : \x7b state-fluent, bool, default = true \x7d;
  \x7d;
  cpfs \x7b a' = a; a-b' = a; \x7d;
  reward = 1;
\x7d
non-fluents n \x7b \x7d
instance i \x7b \x7d"

/-- With the state fluents `a` and `a-b` the two orders do not correspond. -/
theorem Domain.state_orderings_of_hyphenatedText :
    ∃ m, (Reading.ofText 1 hyphenatedText).verdict = .model m ∧
      m.domain.declared .state = [⟨"a", 0⟩, ⟨"a-b", 0⟩] ∧
      m.domain.defined = [⟨"a'", 0⟩, ⟨"a-b'", 0⟩] ∧
      ∃ current next, m.domain.ordering .state = .ok current ∧
        m.domain.nextStateOrdering = .ok next ∧ next.length = current.length ∧
        ¬ ∀ i (hi : i < current.length) (hi' : i < next.length),
          FluentName.primed current[i] = .ok next[i] ∧
            FluentName.unprimed next[i] = .ok current[i] := by
  have hread : ((Reading.ofText 1 hyphenatedText).verdict.model?.map fun m =>
      (m.domain.declared .state, m.domain.defined)) =
      some ([⟨"a", 0⟩, ⟨"a-b", 0⟩], [⟨"a'", 0⟩, ⟨"a-b'", 0⟩]) := by
    rw [hyphenatedText, Reading.ofText_eq_ofScan 1 rfl]
    decide +kernel
  obtain ⟨m, hmodel, hfluents⟩ := Option.map_eq_some_iff.mp hread
  obtain ⟨hdeclared, hdefined⟩ := Prod.mk.inj hfluents
  have hverdict := Verdict.eq_model_of_model? hmodel
  obtain ⟨current, next, hcurrent, hnext, hlength, haligned⟩ :=
    state_orderings_aligned_iff hverdict (by rw [hdeclared]; decide)
      (by rw [hdeclared, hdefined]; decide)
  refine ⟨m, hverdict, hdeclared, hdefined, current, next, hcurrent, hnext, hlength, ?_⟩
  rw [haligned, hdeclared]
  decide

end Rddl
