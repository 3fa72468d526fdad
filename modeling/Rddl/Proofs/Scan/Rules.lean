/-
  Rddl/Proofs/Scan/Rules.lean
  ===========================
  **The rules of the scanner.**

  Every kind of lexeme has a rule, and so have newlines and comments.  A rule has a pattern;
  what is in its language spells a lexeme of the rule (`Rule.exists_spelled`).  The patterns
  are all matched greedily (`Rule.isGreedy`), and a character starts matches of few of them
  (`Rule.starts`).
-/
import Rddl.Proofs.Scan.Patterns

namespace Rddl

open Lexeme Pattern

/-- A rule of the scanner: for newlines, for comments, or for the lexemes of a kind.  Keywords
    are identifiers here, and every symbol has a rule of its own. -/
inductive Rule where
  | newline | comment | ident | «variable» | enumValue | real | integer
  | symbol (mark : Symbol)
deriving DecidableEq, Repr

def Lexeme.rule : Lexeme → Rule
  | .ident _ | .keyword _ => .ident
  | .variable _ => .variable
  | .enumValue _ => .enumValue
  | .real _ => .real
  | .integer _ => .integer
  | .symbol mark => .symbol mark

theorem Lexeme.rule_ofName (w : List Char) : (ofName w).rule = .ident := by
  simp only [ofName]
  split <;> rfl

namespace Rule

/-! ### Patterns of the rules -/

def letter : Pattern := one Char.isAlpha

def digit : Pattern := one Char.isDigit

def letterOrDigit : Pattern := alt letter digit

def nameChar : Pattern := alt (alt letterOrDigit (char '-')) (char '_')

/-- Name characters with a letter or a digit at their end. -/
def nameTail : Pattern := seq (many nameChar) letterOrDigit

def pattern : Rule → Pattern
  | newline => atLeastOne (char '\n')
  | comment => seq (char '/') (seq (char '/') (many (one fun c => c ≠ '\r' && c ≠ '\n')))
  | ident => seq letter (seq (optional nameTail) (optional (char '\'')))
  | «variable» => seq (char '?') nameTail
  | enumValue => seq (char '@') nameTail
  | real => seq (many digit) (seq (char '.') (atLeastOne digit))
  | integer => atLeastOne digit
  | symbol mark => literal mark.spelling.toList

def language (r : Rule) : Language Char := r.pattern.language

def order : List Rule :=
  [newline, comment, ident, «variable», enumValue, real, integer] ++ Symbol.all.map symbol

theorem isClass_letterOrDigit : letterOrDigit.IsClass Char.isAlphanum :=
  IsClass.alt rfl rfl fun c hc => by
    rw [← Bool.not_eq_true]
    intro hdigit
    simp [isAlpha_of_isDigit hdigit] at hc

theorem isClass_nameChar : nameChar.IsClass isNameChar :=
  (isClass_letterOrDigit.alt_char (d := '-') rfl).alt_char (d := '_') rfl

end Rule

/-! ### Languages of the rules -/

namespace Lexeme

theorem isRun_append {u : List Char} {c : Char} (hu : ∀ x ∈ u, isNameChar x = true)
    (hc : c.isAlphanum = true) : isRun (u ++ [c]) = true := by
  have hname : isNameChar c = true := by simp [isNameChar, hc]
  simpa [isRun, hname, hc] using hu

theorem isWord_iff {w : List Char} :
    isWord w = true ↔ ∃ c run prime, w = c :: (run ++ prime) ∧ c.isAlpha = true ∧
      isRun run = true ∧ (prime = [] ∨ prime = ['\'']) := by
  refine ⟨exists_of_isWord, ?_⟩
  rintro ⟨c, run, prime, rfl, halpha, hrun, rfl | rfl⟩
  · have hprime : withoutPrime run = run := by
      refine if_neg fun hlast => ?_
      exact absurd (isNameChar_of_isRun hrun (List.mem_of_getLast? hlast)) (by decide)
    simp [isWord, halpha, hprime, hrun]
  · simp [isWord, halpha, withoutPrime, hrun]

end Lexeme

namespace Rule

variable {w : List Char}

theorem mem_language_newline : w ∈ newline.language ↔ w ≠ [] ∧ ∀ c ∈ w, c = '\n' := by
  have hclass : (char '\n').IsClass (· = '\n') := rfl
  rw [language, pattern, hclass.mem_language_atLeastOne]
  simp

theorem mem_language_digits : w ∈ (atLeastOne digit).language ↔ isNumeral w = true := by
  have hclass : digit.IsClass Char.isDigit := rfl
  rw [hclass.mem_language_atLeastOne]
  simp [isNumeral]

theorem mem_language_nameTail : w ∈ nameTail.language ↔ isRun w = true ∧ w ≠ [] := by
  simp only [nameTail, mem_language_seq, isClass_nameChar.mem_language_many,
    isClass_letterOrDigit.mem_language]
  constructor
  · rintro ⟨u, hu, v, ⟨c, hc, rfl⟩, rfl⟩
    exact ⟨isRun_append hu hc, by simp⟩
  · rintro ⟨hrun, hne⟩
    obtain ⟨u, c, rfl⟩ := (List.eq_nil_or_concat' w).resolve_left hne
    have hc : c.isAlphanum = true := by
      rw [isRun, Bool.and_eq_true, List.getLast?_concat] at hrun
      exact hrun.2
    exact ⟨u, fun x hx => isNameChar_of_isRun hrun (by simp [hx]), [c], ⟨c, hc, rfl⟩, rfl⟩

theorem mem_language_ident : w ∈ ident.language ↔ isWord w = true := by
  rw [isWord_iff]
  simp only [language, pattern, letter, mem_language_seq, mem_language_one, mem_language_optional,
    mem_language_nameTail, mem_language_char]
  constructor
  · rintro ⟨_, ⟨c, hc, rfl⟩, _, ⟨run, hrun, prime, hprime, rfl⟩, rfl⟩
    refine ⟨c, run, prime, rfl, hc, ?_, hprime.symm⟩
    rcases hrun with hrun | rfl
    · exact hrun.1
    · rfl
  · rintro ⟨c, run, prime, rfl, hc, hrun, hprime⟩
    refine ⟨[c], ⟨c, hc, rfl⟩, run ++ prime, ⟨run, ?_, prime, hprime.symm, rfl⟩, rfl⟩
    by_cases hne : run = []
    · exact .inr hne
    · exact .inl ⟨hrun, hne⟩

theorem mem_language_marked {mark : Char} :
    w ∈ (seq (char mark) nameTail).language ↔
      ∃ run, w = mark :: run ∧ isRun run = true ∧ run ≠ [] := by
  simp only [mem_language_char_seq, mem_language_nameTail]
  constructor
  · rintro ⟨run, hrun, rfl⟩
    exact ⟨run, rfl, hrun⟩
  · rintro ⟨run, rfl, hrun⟩
    exact ⟨run, hrun, rfl⟩

theorem mem_language_real : w ∈ real.language ↔ ∃ whole fraction,
    w = whole ++ '.' :: fraction ∧ whole.all Char.isDigit = true ∧ isNumeral fraction = true := by
  have hmany : ∀ {v}, v ∈ (many digit).language ↔ ∀ c ∈ v, c.isDigit = true :=
    IsClass.mem_language_many rfl
  rw [language, pattern, mem_language_seq]
  simp only [mem_language_char_seq, mem_language_digits, hmany, List.all_eq_true]
  constructor
  · rintro ⟨whole, hwhole, _, ⟨fraction, hfraction, rfl⟩, rfl⟩
    exact ⟨whole, fraction, rfl, hwhole, hfraction⟩
  · rintro ⟨whole, fraction, rfl, hwhole, hfraction⟩
    exact ⟨whole, hwhole, _, ⟨fraction, hfraction, rfl⟩, rfl⟩

theorem mem_language_integer : w ∈ integer.language ↔ isNumeral w = true := mem_language_digits

theorem mem_language_symbol {s : Symbol} : w ∈ (symbol s).language ↔ w = s.spelling.toList :=
  mem_language_literal

theorem mem_language_comment : w ∈ comment.language ↔
    ∃ remark, w = '/' :: '/' :: remark ∧ '\r' ∉ remark ∧ '\n' ∉ remark := by
  have hmany : ∀ {v}, v ∈ (many (one fun c => c ≠ '\r' && c ≠ '\n')).language ↔
      ∀ c ∈ v, (c ≠ '\r' && c ≠ '\n') = true := IsClass.mem_language_many rfl
  rw [language, pattern, mem_language_char_seq]
  simp only [mem_language_char_seq, hmany]
  constructor
  · rintro ⟨_, ⟨remark, hremark, rfl⟩, rfl⟩
    refine ⟨remark, rfl, fun hmem => ?_, fun hmem => ?_⟩
    · simpa using hremark _ hmem
    · simpa using hremark _ hmem
  · rintro ⟨remark, rfl, hreturn, hnewline⟩
    refine ⟨_, ⟨remark, fun c hc => ?_, rfl⟩, rfl⟩
    have hr : c ≠ '\r' := fun h => hreturn (h ▸ hc)
    have hn : c ≠ '\n' := fun h => hnewline (h ▸ hc)
    simp [hr, hn]

/-- **What is in the language of a rule spells a lexeme of the rule.** -/
theorem exists_spelled {r : Rule} (hnewline : r ≠ newline) (hcomment : r ≠ comment)
    (hw : w ∈ r.language) : ∃ l : Lexeme, l.rule = r ∧ l.Spelled w := by
  cases r with
  | newline => exact absurd rfl hnewline
  | comment => exact absurd rfl hcomment
  | ident => exact ⟨ofName w, rule_ofName w, .word (mem_language_ident.mp hw)⟩
  | «variable» =>
    obtain ⟨run, rfl, hrun, hne⟩ := mem_language_marked.mp hw
    exact ⟨_, rfl, .variable hrun hne⟩
  | enumValue =>
    obtain ⟨run, rfl, hrun, hne⟩ := mem_language_marked.mp hw
    exact ⟨_, rfl, .enumValue hrun hne⟩
  | real =>
    obtain ⟨whole, fraction, rfl, hwhole, hfraction⟩ := mem_language_real.mp hw
    exact ⟨_, rfl, .real hwhole hfraction⟩
  | integer => exact ⟨_, rfl, .integer (mem_language_integer.mp hw)⟩
  | symbol s =>
    obtain rfl := mem_language_symbol.mp hw
    exact ⟨_, rfl, .symbol s⟩

/-! ### Order of the matches -/

theorem isStrict_nameTail : nameTail.IsStrict :=
  isClass_nameChar.isStrict_many.seq_class isClass_letterOrDigit

theorem isGreedy_digits : (atLeastOne digit).IsGreedy := by
  have hmany : (many digit).IsStrict := IsClass.isStrict_many rfl
  exact hmany.isGreedy.seq_one

/-- **The pattern of every rule is matched greedily.** -/
theorem isGreedy (r : Rule) : r.pattern.IsGreedy := by
  -- characters of one class are taken as many as there are
  have hmany : ∀ accepts, (many (one accepts)).IsGreedy :=
    fun accepts => (IsClass.isStrict_many rfl).isGreedy
  cases r with
  | newline => exact (hmany _).seq_one
  | comment => exact (hmany _).seq_one.seq_one
  | ident =>
    have htail : (optional nameTail).IsStrict :=
      isStrict_nameTail.optional fun h => (mem_language_nameTail.mp h).2 rfl
    have hprime : (optional (char '\'')).IsStrict := (isStrict_one _).optional (by simp)
    -- the prime is one character at most, and every longer run gains as much
    have hshort : ∀ u ∈ (optional (char '\'')).language, u.length ≤ 1 := by
      intro u hu
      rcases mem_language_optional.mp hu with hu | rfl
      · rw [mem_language_char.mp hu]
        exact Nat.le_refl 1
      · exact Nat.zero_le 1
    exact (htail.seq_short hprime.isGreedy hshort).seq_one
  | «variable» => exact isStrict_nameTail.isGreedy.seq_one
  | enumValue => exact isStrict_nameTail.isGreedy.seq_one
  | real =>
    -- the point is no digit, so the digits before it are taken in one way
    have hdigit : digit.IsClass Char.isDigit := rfl
    refine hdigit.many_seq isGreedy_digits.seq_one fun u hu => ?_
    obtain ⟨v, -, rfl⟩ := mem_language_char_seq.mp hu
    exact ⟨'.', rfl, rfl⟩
  | integer => exact isGreedy_digits
  | symbol s => exact isGreedy_literal _

/-! ### First characters -/

def starts : Rule → Char → Bool
  | newline, c => c = '\n'
  | comment, c => c = '/'
  | ident, c => c.isAlpha
  | «variable», c => c = '?'
  | enumValue, c => c = '@'
  | real, c => c.isDigit || c = '.'
  | integer, c => c.isDigit
  | symbol s, c => s.spelling.toList.head? = some c

theorem exists_starts {r : Rule} (hw : w ∈ r.language) :
    ∃ c v, w = c :: v ∧ r.starts c = true := by
  -- a rule starts with its mark, or with a character of the class it starts with
  cases r with
  | newline =>
    obtain ⟨v, -, rfl⟩ := mem_language_char_seq.mp hw
    exact ⟨'\n', v, rfl, rfl⟩
  | comment =>
    obtain ⟨v, -, rfl⟩ := mem_language_char_seq.mp hw
    exact ⟨'/', v, rfl, rfl⟩
  | ident =>
    obtain ⟨c, run, prime, rfl, hc, -, -⟩ := isWord_iff.mp (mem_language_ident.mp hw)
    exact ⟨c, _, rfl, hc⟩
  | «variable» =>
    obtain ⟨v, -, rfl⟩ := mem_language_char_seq.mp hw
    exact ⟨'?', v, rfl, rfl⟩
  | enumValue =>
    obtain ⟨v, -, rfl⟩ := mem_language_char_seq.mp hw
    exact ⟨'@', v, rfl, rfl⟩
  | real =>
    obtain ⟨whole, fraction, rfl, hwhole, -⟩ := mem_language_real.mp hw
    -- a decimal may start with the point
    cases whole with
    | nil => exact ⟨'.', fraction, rfl, rfl⟩
    | cons c whole =>
      have hc := List.all_eq_true.mp hwhole c List.mem_cons_self
      exact ⟨c, _, rfl, by simp [starts, hc]⟩
  | integer =>
    have hdigits := mem_language_integer.mp hw
    cases w with
    | nil => simp [isNumeral] at hdigits
    | cons c w => exact ⟨c, w, rfl, isDigit_of_isNumeral hdigits List.mem_cons_self⟩
  | symbol s =>
    obtain rfl := mem_language_symbol.mp hw
    cases s <;> exact ⟨_, _, rfl, rfl⟩

/-- A rule has no match at the front of a text. -/
def Misses (r : Rule) (cs : List Char) : Prop := ∀ w ∈ r.language, ¬w <+: cs

theorem starts_of_isPrefix {r : Rule} {c : Char} {cs : List Char} (hw : w ∈ r.language)
    (hpre : w <+: c :: cs) : r.starts c = true := by
  obtain ⟨d, v, rfl, hd⟩ := exists_starts hw
  obtain ⟨rfl, -⟩ := List.cons_prefix_cons.mp hpre
  exact hd

theorem tries_of_misses {r : Rule} {cs : List Char} (h : r.Misses cs) :
    r.pattern.tries cs = [] := by
  refine List.eq_nil_iff_forall_not_mem.mpr fun n hn => ?_
  obtain ⟨u, hu, hpre, -⟩ := (finds_tries r.pattern cs n).mp hn
  exact h u hu hpre

end Rule

end Rddl
