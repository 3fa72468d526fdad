/-
  Rddl/Proofs/Scan/Patterns.lean
  ==============================
  **Regular expressions and how they are matched.**

  A pattern stands for a language.  At the front of a text it is matched by trying: an
  alternative is tried before the next one, and a repetition takes as much as it can before it
  takes less.  `Pattern.tries` are the lengths of all matches in the order in which they are
  found.  They are exactly the lengths of the prefixes in the language (`Pattern.finds_tries`), but
  the first one need not be the longest.  `Pattern.IsGreedy` says that it is, for every text, and
  the rules for it cover repetitions of single characters with short patterns behind them.
-/
import Mathlib.Computability.Language
import Rddl.Proofs.Scan.Spelling

namespace Rddl

open Computability

inductive Pattern where
  | empty
  | one (accepts : Char → Bool)
  | seq (first second : Pattern)
  | alt (first second : Pattern)
  | many (inner : Pattern)

namespace Pattern

def optional (p : Pattern) : Pattern := alt p empty

def atLeastOne (p : Pattern) : Pattern := seq p (many p)

def char (c : Char) : Pattern := one (· = c)

def literal (cs : List Char) : Pattern := cs.foldr (fun c p => seq (char c) p) empty

/-! ### Languages -/

def language : Pattern → Language Char
  | empty => 1
  | one accepts => {w | ∃ c, accepts c = true ∧ w = [c]}
  | seq first second => first.language * second.language
  | alt first second => first.language + second.language
  | many inner => inner.language∗

variable {w : List Char} {p q : Pattern}

@[simp] theorem mem_language_empty : w ∈ empty.language ↔ w = [] := Language.mem_one w

@[simp] theorem mem_language_one {accepts : Char → Bool} :
    w ∈ (one accepts).language ↔ ∃ c, accepts c = true ∧ w = [c] := Iff.rfl

@[simp] theorem mem_language_seq :
    w ∈ (seq p q).language ↔ ∃ u ∈ p.language, ∃ v ∈ q.language, u ++ v = w := Language.mem_mul

@[simp] theorem mem_language_alt :
    w ∈ (alt p q).language ↔ w ∈ p.language ∨ w ∈ q.language := Iff.rfl

@[simp] theorem mem_language_char {c : Char} : w ∈ (char c).language ↔ w = [c] := by
  simp [char]

theorem mem_language_char_seq {c : Char} :
    w ∈ (seq (char c) p).language ↔ ∃ v ∈ p.language, w = c :: v := by
  simp [eq_comm]

@[simp] theorem mem_language_optional : w ∈ (optional p).language ↔ w ∈ p.language ∨ w = [] := by
  simp [optional]

@[simp] theorem mem_language_literal {cs : List Char} : w ∈ (literal cs).language ↔ w = cs := by
  induction cs generalizing w with
  | nil => simp [literal]
  | cons c cs ih =>
    have hcons : literal (c :: cs) = seq (char c) (literal cs) := rfl
    simp [hcons, ih, eq_comm]

theorem mem_language_many :
    w ∈ (many p).language ↔ ∃ ws : List (List Char), w = ws.flatten ∧ ∀ u ∈ ws, u ∈ p.language :=
  Language.mem_kstar

/-! ### Trying -/

/-- The lengths of the matches of a repetition, given those of what is repeated.  Every round
    takes a character, so the length of the text bounds the rounds. -/
def repeated (step : List Char → List Nat) : Nat → List Char → List Nat
  | 0, _ => [0]
  | rounds + 1, cs =>
    ((step cs).filter (0 < ·)).flatMap
      (fun n => (repeated step rounds (cs.drop n)).map (n + ·)) ++ [0]

/-- The lengths of the matches of a pattern at the front of a text, in the order in which they
    are found. -/
def tries : Pattern → List Char → List Nat
  | empty, _ => [0]
  | one accepts, cs => if cs.head?.any accepts then [1] else []
  | seq first second, cs =>
    (first.tries cs).flatMap fun n => (second.tries (cs.drop n)).map (n + ·)
  | alt first second, cs => first.tries cs ++ second.tries cs
  | many inner, cs => repeated inner.tries cs.length cs

/-- The lengths that a list has are those of the prefixes in a language. -/
def Finds (lengths : List Nat) (L : Language Char) (cs : List Char) : Prop :=
  ∀ n, n ∈ lengths ↔ ∃ w ∈ L, w <+: cs ∧ w.length = n

theorem Finds.seq {L M : Language Char} {cs : List Char} {lengths : List Nat}
    {next : List Char → List Nat} (h : Finds lengths L cs)
    (h' : ∀ n ∈ lengths, Finds (next (cs.drop n)) M (cs.drop n)) :
    Finds (lengths.flatMap fun n => (next (cs.drop n)).map (n + ·)) (L * M) cs := by
  intro k
  simp only [List.mem_flatMap, List.mem_map, Language.mem_mul]
  constructor
  · rintro ⟨n, hn, m, hm, rfl⟩
    obtain ⟨v, hv, hpre, rfl⟩ := (h' n hn m).mp hm
    obtain ⟨u, hu, ⟨rest, rfl⟩, rfl⟩ := (h n).mp hn
    rw [List.drop_left] at hpre
    exact ⟨u ++ v, ⟨u, hu, v, hv, rfl⟩, (List.prefix_append_right_inj u).mpr hpre, by simp⟩
  · rintro ⟨w, ⟨u, hu, v, hv, rfl⟩, ⟨rest, rfl⟩, rfl⟩
    rw [List.append_assoc] at h h' ⊢
    have hn : u.length ∈ lengths := (h _).mpr ⟨u, hu, List.prefix_append u _, rfl⟩
    refine ⟨u.length, hn, v.length, (h' _ hn _).mpr ⟨v, hv, ?_, rfl⟩, by simp⟩
    rw [List.drop_left]
    exact List.prefix_append v rest

/-- A repetition is empty, or one round that takes a character and then a repetition. -/
theorem mem_kstar_iff {L : Language Char} {w : List Char} :
    w ∈ L∗ ↔ w = [] ∨ ∃ u ∈ L, u ≠ [] ∧ ∃ v ∈ L∗, u ++ v = w := by
  constructor
  · intro hw
    obtain ⟨ws, rfl, hws⟩ := Language.mem_kstar_iff_exists_nonempty.mp hw
    cases ws with
    | nil => exact .inl rfl
    | cons u ws =>
      rw [List.forall_mem_cons] at hws
      refine .inr ⟨u, hws.1.1, hws.1.2, ws.flatten, ?_, rfl⟩
      exact Language.join_mem_kstar fun v hv => (hws.2 v hv).1
  · rintro (rfl | ⟨u, hu, -, v, hv, rfl⟩)
    · exact Language.nil_mem_kstar L
    · rw [← Language.one_add_self_mul_kstar_eq_kstar]
      exact .inr (Language.append_mem_mul hu hv)

theorem finds_repeated {L : Language Char} {step : List Char → List Nat}
    (h : ∀ cs, Finds (step cs) L cs) {rounds : Nat} {cs : List Char}
    (hrounds : cs.length ≤ rounds) : Finds (repeated step rounds cs) L∗ cs := by
  induction rounds generalizing cs with
  | zero =>
    obtain rfl := List.length_eq_zero_iff.mp (Nat.le_zero.mp hrounds)
    intro n
    simp [repeated, eq_comm, Language.nil_mem_kstar]
  | succ rounds ih =>
    -- rounds that take nothing are left out, which loses no word of the repetition
    have hround : Finds ((step cs).filter (0 < ·)) {u ∈ L | u ≠ []} cs := by
      intro n
      rw [List.mem_filter, h cs n, decide_eq_true_eq]
      constructor
      · rintro ⟨⟨u, hu, hpre, rfl⟩, hpos⟩
        exact ⟨u, ⟨hu, List.ne_nil_of_length_pos hpos⟩, hpre, rfl⟩
      · rintro ⟨u, ⟨hu, hne⟩, hpre, rfl⟩
        exact ⟨⟨u, hu, hpre, rfl⟩, List.length_pos_iff.mpr hne⟩
    have hrest : ∀ n ∈ (step cs).filter (0 < ·),
        Finds (repeated step rounds (cs.drop n)) L∗ (cs.drop n) := by
      intro n hn
      have hpos : 0 < n := by simpa using List.of_mem_filter hn
      refine ih ?_
      rw [List.length_drop]
      omega
    intro n
    rw [repeated, List.mem_append, hround.seq hrest n, List.mem_singleton]
    constructor
    · rintro (⟨w, ⟨u, hu, v, hv, rfl⟩, hpre, rfl⟩ | rfl)
      · exact ⟨u ++ v, mem_kstar_iff.mpr (.inr ⟨u, hu.1, hu.2, v, hv, rfl⟩), hpre, rfl⟩
      · exact ⟨[], Language.nil_mem_kstar L, List.nil_prefix, rfl⟩
    · rintro ⟨w, hw, hpre, rfl⟩
      rcases mem_kstar_iff.mp hw with rfl | ⟨u, hu, hne, v, hv, rfl⟩
      · exact .inr rfl
      · exact .inl ⟨u ++ v, ⟨u, ⟨hu, hne⟩, v, hv, rfl⟩, hpre, rfl⟩

/-- **Trying finds the prefixes that are in the language.** -/
theorem finds_tries (p : Pattern) (cs : List Char) : Finds (p.tries cs) p.language cs := by
  induction p generalizing cs with
  | empty =>
    intro n
    simp [tries, eq_comm]
  | one accepts =>
    intro n
    constructor
    · intro hn
      cases cs with
      | nil => simp [tries] at hn
      | cons c cs =>
        rw [tries, List.head?_cons, Option.any_some, List.mem_ite_nil_right,
          List.mem_singleton] at hn
        exact ⟨[c], ⟨c, hn.1, rfl⟩, ⟨cs, rfl⟩, hn.2.symm⟩
    · rintro ⟨w, ⟨c, hc, rfl⟩, ⟨rest, rfl⟩, rfl⟩
      simp [tries, hc]
  -- the composed patterns, each from its parts
  | seq first second ih ih' => exact (ih cs).seq fun n _ => ih' _
  | alt first second ih ih' =>
    intro n
    rw [tries, List.mem_append, ih cs n, ih' cs n]
    simp only [mem_language_alt, or_and_right, exists_or]
  | many inner ih => exact finds_repeated ih (Nat.le_refl _)

/-- What is in the language of a pattern can be told from the matches. -/
theorem mem_language_iff_tries : w ∈ p.language ↔ w.length ∈ p.tries w := by
  rw [finds_tries p w]
  constructor
  · exact fun hw => ⟨w, hw, List.prefix_rfl, rfl⟩
  · rintro ⟨u, hu, hpre, hlength⟩
    exact hpre.eq_of_length hlength ▸ hu

instance decidableMemLanguage (p : Pattern) (w : List Char) : Decidable (w ∈ p.language) :=
  decidable_of_iff _ mem_language_iff_tries.symm

/-! ### Classes of characters -/

/-- A pattern is matched as a single character that is accepted. -/
def IsClass (p : Pattern) (accepts : Char → Bool) : Prop := p.tries = (one accepts).tries

theorem IsClass.alt {accepts accepts' : Char → Bool} (hp : p.IsClass accepts)
    (hq : q.IsClass accepts') (h : ∀ c, accepts c = true → accepts' c = false) :
    (alt p q).IsClass fun c => accepts c || accepts' c := by
  funext cs
  have halt : (Pattern.alt p q).tries cs = (one accepts).tries cs ++ (one accepts').tries cs := by
    rw [← hp, ← hq, tries]
  rw [halt]
  cases cs with
  | nil => simp [tries]
  | cons c cs =>
    cases hc : accepts c with
    | true => simp [tries, hc, h c hc]
    | false => cases hc' : accepts' c <;> simp [tries, hc, hc']

theorem IsClass.alt_char {accepts : Char → Bool} {d : Char} (hp : p.IsClass accepts)
    (hd : accepts d = false) : (Pattern.alt p (char d)).IsClass fun c => accepts c || c = d := by
  refine hp.alt rfl fun c hc => decide_eq_false ?_
  rintro rfl
  simp [hd] at hc

theorem IsClass.mem_language {accepts : Char → Bool} (hp : p.IsClass accepts) :
    w ∈ p.language ↔ ∃ c, accepts c = true ∧ w = [c] := by
  rw [mem_language_iff_tries, hp, ← mem_language_iff_tries, mem_language_one]

theorem IsClass.mem_language_many {accepts : Char → Bool} (hp : p.IsClass accepts) :
    w ∈ (many p).language ↔ ∀ c ∈ w, accepts c = true := by
  rw [Pattern.mem_language_many]
  constructor
  · rintro ⟨ws, rfl, hws⟩ c hc
    obtain ⟨u, hu, hcu⟩ := List.mem_flatten.mp hc
    obtain ⟨d, hd, rfl⟩ := hp.mem_language.mp (hws u hu)
    cases List.mem_singleton.mp hcu
    exact hd
  · intro hw
    refine ⟨w.map fun c => [c], by rw [← List.flatMap_def, List.flatMap_singleton'], ?_⟩
    intro u hu
    obtain ⟨c, hc, rfl⟩ := List.mem_map.mp hu
    exact hp.mem_language.mpr ⟨c, hw c hc, rfl⟩

theorem IsClass.mem_language_atLeastOne {accepts : Char → Bool} (hp : p.IsClass accepts) :
    w ∈ (atLeastOne p).language ↔ w ≠ [] ∧ ∀ c ∈ w, accepts c = true := by
  rw [atLeastOne, mem_language_seq]
  constructor
  · rintro ⟨u, hu, v, hv, rfl⟩
    obtain ⟨c, hc, rfl⟩ := hp.mem_language.mp hu
    exact ⟨by simp, List.forall_mem_cons.mpr ⟨hc, hp.mem_language_many.mp hv⟩⟩
  · rintro ⟨hne, hall⟩
    obtain ⟨c, v, rfl⟩ := List.exists_cons_of_ne_nil hne
    rw [List.forall_mem_cons] at hall
    exact ⟨[c], hp.mem_language.mpr ⟨c, hall.1, rfl⟩, v, hp.mem_language_many.mpr hall.2, rfl⟩

/-! ### First matches -/

/-- No match is found before a longer one. -/
def IsGreedy (p : Pattern) : Prop := ∀ cs, (p.tries cs).Pairwise (· ≥ ·)

/-- Every match is found after the longer ones, and once. -/
def IsStrict (p : Pattern) : Prop := ∀ cs, (p.tries cs).Pairwise (· > ·)

theorem IsStrict.isGreedy (hp : p.IsStrict) : p.IsGreedy :=
  fun cs => (hp cs).imp Nat.le_of_lt

/-- **The first match is the longest one.** -/
theorem IsGreedy.head?_tries (hp : p.IsGreedy) {cs : List Char} (hw : w ∈ p.language)
    (hpre : w <+: cs) (hlongest : ∀ u ∈ p.language, u <+: cs → u.length ≤ w.length) :
    (p.tries cs).head? = .some w.length := by
  have hmem : w.length ∈ p.tries cs := (finds_tries p cs _).mpr ⟨w, hw, hpre, rfl⟩
  cases htries : p.tries cs with
  | nil => simp [htries] at hmem
  | cons n ns =>
    obtain ⟨u, hu, hupre, rfl⟩ := (finds_tries p cs n).mp (by simp [htries])
    have hle := hlongest u hu hupre
    have hge : w.length ≤ u.length := by
      have hsorted := hp cs
      rw [htries, List.pairwise_cons] at hsorted
      rw [htries, List.mem_cons] at hmem
      exact hmem.elim Nat.le_of_eq (hsorted.1 _)
    rw [List.head?_cons, Nat.le_antisymm hle hge]

theorem isStrict_one (accepts : Char → Bool) : (one accepts).IsStrict := by
  intro cs
  rw [tries]
  split <;> simp

theorem IsClass.isStrict_many {accepts : Char → Bool} (hp : p.IsClass accepts) :
    (many p).IsStrict := by
  intro cs
  rw [tries, hp]
  generalize cs.length = rounds
  induction rounds generalizing cs with
  | zero => simp [repeated]
  | succ rounds ih =>
    rw [repeated, List.pairwise_append]
    refine ⟨?_, by simp, ?_⟩
    · cases cs with
      | nil => simp [tries]
      | cons c cs =>
        by_cases hc : accepts c = true
        · simpa [tries, hc, List.pairwise_map] using ih cs
        · simp [tries, hc]
    · -- every round takes a character
      intro n hn m hm
      simp only [List.mem_flatMap, List.mem_filter, List.mem_map, decide_eq_true_eq] at hn
      obtain ⟨k, ⟨-, hk⟩, j, -, rfl⟩ := hn
      cases List.mem_singleton.mp hm
      omega

/-- One pattern after another, if what the second one finds behind the first is in order and
    comes in the right order for every two matches of the first. -/
theorem pairwise_seq {R : Nat → Nat → Prop} {cs : List Char} (hp : p.IsStrict)
    (hq : ∀ n, ((q.tries (cs.drop n)).map (n + ·)).Pairwise R)
    (hcross : ∀ n ∈ p.tries cs, ∀ n' < n, ∀ m ∈ q.tries (cs.drop n),
      ∀ m' ∈ q.tries (cs.drop n'), R (n + m) (n' + m')) :
    ((seq p q).tries cs).Pairwise R := by
  rw [tries, List.pairwise_flatMap]
  refine ⟨fun n _ => hq n, (hp cs).imp_of_mem fun hn _ hlt => ?_⟩
  simp only [List.forall_mem_map]
  exact hcross _ hn _ hlt

theorem IsGreedy.seq_one {accepts : Char → Bool} (hq : q.IsGreedy) :
    (seq (one accepts) q).IsGreedy := by
  intro cs
  rw [tries, tries]
  split
  · simpa [List.pairwise_map] using hq (cs.drop 1)
  · simp

theorem isGreedy_literal (cs : List Char) : (literal cs).IsGreedy := by
  induction cs with
  | nil => exact fun _ => by simp [literal, tries]
  | cons c cs ih => exact ih.seq_one

/-- A single character behind a pattern leaves the order of its matches as it is. -/
theorem IsStrict.seq_class {accepts : Char → Bool} (hp : p.IsStrict) (hq : q.IsClass accepts) :
    (seq p q).IsStrict := by
  have hone : ∀ {rest m}, m ∈ q.tries rest → m = 1 := by
    intro rest m hm
    obtain ⟨u, hu, -, rfl⟩ := (finds_tries q rest m).mp hm
    obtain ⟨c, -, rfl⟩ := hq.mem_language.mp hu
    rfl
  intro cs
  refine pairwise_seq hp (fun n => ?_) fun n _ n' hlt m hm m' hm' => ?_
  · rw [hq, tries]
    split <;> simp
  · rw [hone hm, hone hm']
    omega

theorem IsStrict.optional (hp : p.IsStrict) (hempty : [] ∉ p.language) :
    (optional p).IsStrict := by
  intro cs
  rw [Pattern.optional, tries, List.pairwise_append]
  refine ⟨hp cs, by simp [tries], fun n hn m hm => ?_⟩
  cases List.mem_singleton.mp hm
  obtain ⟨u, hu, -, rfl⟩ := (finds_tries p cs n).mp hn
  exact List.length_pos_iff.mpr fun h => hempty (h ▸ hu)

/-- One character at most behind a pattern can at most make up for a shorter match. -/
theorem IsStrict.seq_short (hp : p.IsStrict) (hq : q.IsGreedy)
    (hshort : ∀ u ∈ q.language, u.length ≤ 1) : (seq p q).IsGreedy := by
  intro cs
  refine pairwise_seq hp (fun n => ?_) fun n _ n' hlt m _ m' hm' => ?_
  · simpa [List.pairwise_map] using hq (cs.drop n)
  · obtain ⟨u, hu, -, rfl⟩ := (finds_tries q _ m').mp hm'
    have hle := hshort u hu
    omega

/-- What cannot start with a repeated character is found behind the whole repetition only. -/
theorem IsClass.many_seq {accepts : Char → Bool} (hp : p.IsClass accepts) (hq : q.IsGreedy)
    (hapart : ∀ u ∈ q.language, ∃ c, u.head? = .some c ∧ accepts c = false) :
    (seq (many p) q).IsGreedy := by
  intro cs
  refine pairwise_seq hp.isStrict_many (fun n => ?_) fun n hn n' hlt m _ m' hm' => ?_
  · simpa [List.pairwise_map] using hq (cs.drop n)
  · obtain ⟨w, hw, ⟨rest, rfl⟩, rfl⟩ := (finds_tries (many p) cs n).mp hn
    obtain ⟨u, hu, hpre, rfl⟩ := (finds_tries q _ m').mp hm'
    obtain ⟨c, hc, hnot⟩ := hapart u hu
    -- the character behind the shorter match belongs to the longer one
    rw [List.drop_append_of_le_length (Nat.le_of_lt hlt)] at hpre
    have hmem : c ∈ w := by
      have hhead : (w.drop n' ++ rest).head? = .some c := by
        obtain ⟨v, hv⟩ := hpre
        rw [← hv, List.head?_append, hc, Option.some_or]
      have hne : w.drop n' ≠ [] := by
        rw [ne_eq, List.drop_eq_nil_iff]
        omega
      rw [List.head?_append_of_ne_nil _ hne] at hhead
      exact List.mem_of_mem_drop (List.mem_of_mem_head? hhead)
    simp [hp.mem_language_many.mp hw c hmem] at hnot

end Pattern

end Rddl
