/-
  Rddl/Proofs/FluentName.lean
  ===========================
  **Putting a prime on a fluent name and taking it off.**

  A name is cut at its first slash, whatever stands before and behind it, and both renamings
  work on the part before.  Taking off what `FluentName.primed` has put on gives the name back.
  The other way round this is so only for names that have the prime: `FluentName.unprimed` drops
  any character, and before a slash at the very front it puts a copy of the name
  (`FluentName.renamings_undo_iff`).
-/
import Mathlib.Data.List.TakeWhile
import Rddl.FluentName

namespace Rddl.FluentName

variable {functor arity : List Char} {c : Char}

/-! ### The cut at the first slash -/

theorem split?_append (arity : List Char) (h : '/' ∉ functor) :
    split? (functor ++ '/' :: arity) = some (functor, arity) := by
  have hpart : ∀ c ∈ functor, decide (c ≠ '/') = true := by
    intro c hc
    simpa using fun hslash : c = '/' => h (hslash ▸ hc)
  rw [split?, List.dropWhile_append_of_pos hpart, List.takeWhile_append_of_pos hpart]
  simp

theorem split?_eq_none (h : '/' ∉ functor) : split? functor = none := by
  have hall : functor.dropWhile (· ≠ '/') = [] := by
    rw [List.dropWhile_eq_nil_iff]
    intro c hc
    simpa using fun hslash : c = '/' => h (hslash ▸ hc)
  rw [split?, hall]

/-- The parts before and behind the first slash are fixed by the name. -/
theorem parts_unique {functor' arity' : List Char} (h : '/' ∉ functor) (h' : '/' ∉ functor')
    (heq : functor ++ '/' :: arity = functor' ++ '/' :: arity') :
    functor = functor' ∧ arity = arity' := by
  have hsplit := split?_append arity h
  rw [heq, split?_append arity' h'] at hsplit
  cases hsplit
  exact ⟨rfl, rfl⟩

/-- A name with a slash, cut at the first one. -/
theorem exists_parts {name : String} (h : '/' ∈ name.toList) :
    ∃ functor arity, name = String.ofList (functor ++ '/' :: arity) ∧ '/' ∉ functor := by
  rcases List.eq_append_cons_of_mem h with ⟨functor, arity, hname, hfunctor⟩
  exact ⟨functor, arity, by rw [← hname, String.ofList_toList], hfunctor⟩

/-! ### What the renamings do to the parts -/

theorem primed_ofList (arity : List Char) (h : '/' ∉ functor) :
    primed (String.ofList (functor ++ '/' :: arity)) =
      .ok (String.ofList (functor ++ '\'' :: '/' :: arity)) := by
  rw [primed, String.toList_ofList, split?_append arity h]

/-- The character before the slash is dropped. -/
theorem unprimed_ofList (arity : List Char) (h : '/' ∉ functor ++ [c]) :
    unprimed (String.ofList (functor ++ [c] ++ '/' :: arity)) =
      .ok (String.ofList (functor ++ '/' :: arity)) := by
  rw [unprimed, String.toList_ofList, split?_append arity h]
  simp

/-- Where no character stands before the slash, a name that starts with a slash stays one. -/
theorem unprimed_ofList_slash (arity : List Char) :
    ∃ rest, unprimed (String.ofList ('/' :: arity)) = .ok (String.ofList ('/' :: rest)) := by
  have hsplit : split? ('/' :: arity) = some ([], arity) := split?_append arity List.not_mem_nil
  rw [unprimed, String.toList_ofList, hsplit]
  cases arity with
  | nil => exact ⟨_, rfl⟩
  | cons c arity => exact ⟨_, rfl⟩

/-- What renames the parts of a name fails exactly where the name has no slash. -/
theorem eq_error_iff_of_split? {name : String} {renamed : Except Fault String} {cause : Fault}
    (hnone : split? name.toList = none → renamed = .error .noArity)
    (hsome : ∀ parts, split? name.toList = some parts → ∃ out, renamed = .ok out) :
    renamed = .error cause ↔ cause = .noArity ∧ '/' ∉ name.toList := by
  by_cases hslash : '/' ∈ name.toList
  · rcases exists_parts hslash with ⟨functor, arity, rfl, hfunctor⟩
    rcases hsome (functor, arity) (by rw [String.toList_ofList, split?_append arity hfunctor])
      with ⟨out, rfl⟩
    simp
  · rw [hnone (split?_eq_none hslash)]
    simp [hslash, eq_comm]

theorem primed_eq_error_iff {name : String} {cause : Fault} :
    primed name = .error cause ↔ cause = .noArity ∧ '/' ∉ name.toList :=
  eq_error_iff_of_split? (fun h => by rw [primed, h]) fun parts h => ⟨_, by rw [primed, h]⟩

theorem unprimed_eq_error_iff {name : String} {cause : Fault} :
    unprimed name = .error cause ↔ cause = .noArity ∧ '/' ∉ name.toList :=
  eq_error_iff_of_split? (fun h => by rw [unprimed, h]) fun parts h => ⟨_, by rw [unprimed, h]⟩

/-! ### One renaming after the other -/

theorem primed_bind_unprimed {name : String} (h : '/' ∈ name.toList) :
    (primed name >>= unprimed) = .ok name := by
  rcases exists_parts h with ⟨functor, arity, rfl, hfunctor⟩
  have hprimed : '/' ∉ functor ++ ['\''] := by simpa using hfunctor
  rw [primed_ofList arity hfunctor, List.append_cons]
  exact unprimed_ofList arity hprimed

/-- The first slash of a name stands right behind a prime. -/
def IsPrimed (name : String) : Prop :=
  ∃ functor arity, name.toList = functor ++ '\'' :: '/' :: arity ∧ '/' ∉ functor

theorem isPrimed_ofList_iff (arity : List Char) (h : '/' ∉ functor ++ [c]) :
    IsPrimed (String.ofList (functor ++ [c] ++ '/' :: arity)) ↔ c = '\'' := by
  constructor
  · rintro ⟨functor', arity', heq, hfunctor'⟩
    rw [String.toList_ofList, List.append_cons functor'] at heq
    rcases parts_unique h (by simpa using hfunctor') heq with ⟨hfunctor, -⟩
    simpa using (List.append_inj' hfunctor rfl).2
  · rintro rfl
    refine ⟨functor, arity, by simp, ?_⟩
    simpa using h

theorem not_isPrimed_ofList_slash (arity : List Char) :
    ¬IsPrimed (String.ofList ('/' :: arity)) := by
  rintro ⟨functor, arity', heq, hfunctor⟩
  cases functor with
  | nil => simp at heq
  | cons d functor =>
    rw [String.toList_ofList, List.cons_append] at heq
    rcases List.cons.inj heq with ⟨rfl, -⟩
    exact hfunctor List.mem_cons_self

theorem unprimed_bind_primed_iff {name : String} :
    (unprimed name >>= primed) = .ok name ↔ IsPrimed name := by
  by_cases hslash : '/' ∈ name.toList
  · rcases exists_parts hslash with ⟨functor, arity, rfl, hfunctor⟩
    rcases List.eq_nil_or_concat functor with rfl | ⟨functor, c, rfl⟩
    · -- the name starts with the slash, and a prime is put before it
      rcases unprimed_ofList_slash arity with ⟨rest, hrest⟩
      have hprimed := primed_ofList rest hfunctor
      rw [List.nil_append] at hprimed ⊢
      refine iff_of_false ?_ (not_isPrimed_ofList_slash arity)
      rw [hrest]
      change primed _ ≠ _
      rw [hprimed]
      intro heq
      cases String.ofList_inj.mp (Except.ok.inj heq)
    · rw [List.concat_eq_append] at hfunctor ⊢
      have hshort : '/' ∉ functor := fun hmem => hfunctor (List.mem_append_left _ hmem)
      rw [isPrimed_ofList_iff arity hfunctor, unprimed_ofList arity hfunctor]
      change primed _ = _ ↔ _
      rw [primed_ofList arity hshort, Except.ok.injEq, String.ofList_inj, List.append_assoc,
        List.append_cancel_left_eq]
      simp [eq_comm]
  · apply iff_of_false
    · rw [unprimed_eq_error_iff.mpr ⟨rfl, hslash⟩]
      intro heq
      cases heq
    · rintro ⟨functor, arity, heq, -⟩
      exact hslash (by simp [heq])

/-- **When the renamings undo each other.**  Putting a prime on and taking it off gives back
    every name with a slash.  Taking one off and putting it on gives back exactly the names that
    have a prime right before their first slash.  Both fail exactly for the names without a
    slash. -/
theorem renamings_undo_iff (name : String) :
    ((primed name >>= unprimed) = .ok name ↔ '/' ∈ name.toList) ∧
    ((unprimed name >>= primed) = .ok name ↔ IsPrimed name) ∧
    (∀ cause, primed name = .error cause ↔ cause = .noArity ∧ '/' ∉ name.toList) ∧
    ∀ cause, unprimed name = .error cause ↔ cause = .noArity ∧ '/' ∉ name.toList := by
  refine ⟨?_, unprimed_bind_primed_iff, fun _ => primed_eq_error_iff,
    fun _ => unprimed_eq_error_iff⟩
  constructor
  · intro h
    by_contra hslash
    rw [primed_eq_error_iff.mpr ⟨rfl, hslash⟩] at h
    cases h
  · exact primed_bind_unprimed

end Rddl.FluentName
