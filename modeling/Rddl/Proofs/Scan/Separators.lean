/-
  Rddl/Proofs/Scan/Separators.lean
  ================================
  **Words and separators.**

  Between two words of a text there may be blanks, tabs, newlines and comments, as long as
  the first of them is not a comment.  How they are chosen does not matter: the text has
  the lexemes that the words have on their own (`Scan.lexemes_of_separated`).
-/
import Rddl.Proofs.Scan.Layout
import Rddl.Proofs.Scan.Longest

namespace Rddl

open Lexeme Front

/-- Characters that a rule matches as a whole and makes a lexeme of. -/
structure Rule.Makes (r : Rule) (w : List Char) : Prop where
  mem : w ∈ r.language
  newline : r ≠ .newline
  comment : r ≠ .comment
  digits : r = .integer → w.length ≤ digitLimit

instance Rule.decidableMakes (r : Rule) (w : List Char) : Decidable (r.Makes w) :=
  decidable_of_iff (w ∈ r.pattern.language ∧ r ≠ .newline ∧ r ≠ .comment ∧
    (r = .integer → w.length ≤ digitLimit))
    ⟨fun h => ⟨h.1, h.2.1, h.2.2.1, h.2.2.2⟩, fun h => ⟨h.mem, h.newline, h.comment, h.digits⟩⟩

namespace Layout

open Pattern

def space : Pattern := alt (alt (char ' ') (char '\t')) (char '\n')

def remark : Pattern := seq Rule.comment.pattern (char '\n')

def separator : Pattern := seq space (many (alt space remark))

def separated (words separators : List (List Char)) : List Char :=
  (List.zipWith (· ++ ·) words (separators ++ [[]])).flatten

variable {w : List Char}

theorem mem_language_space :
    w ∈ space.language ↔ w = [' '] ∨ w = ['\t'] ∨ w = ['\n'] := by
  simp [space, or_assoc]

theorem mem_language_remark : w ∈ remark.language ↔
    ∃ text, w = '/' :: '/' :: (text ++ ['\n']) ∧ '\r' ∉ text ∧ '\n' ∉ text := by
  rw [remark, mem_language_seq]
  constructor
  · rintro ⟨u, hu, v, hv, rfl⟩
    obtain ⟨text, rfl, htext⟩ := Rule.mem_language_comment.mp hu
    rw [mem_language_char.mp hv]
    exact ⟨text, rfl, htext⟩
  · rintro ⟨text, rfl, htext⟩
    exact ⟨'/' :: '/' :: text, Rule.mem_language_comment.mpr ⟨text, rfl, htext⟩, ['\n'],
      mem_language_char.mpr rfl, rfl⟩

variable {words separators : List (List Char)} {cs : List Char}

theorem of_space (h : Layout words cs) (hw : w ∈ space.language) :
    Layout words (w ++ cs) ∧ opensGap (w ++ cs) = true := by
  rcases mem_language_space.mp hw with rfl | rfl | rfl
  · exact ⟨.blank h, rfl⟩
  · exact ⟨.tab h, rfl⟩
  · exact ⟨.newline h, rfl⟩

theorem of_remark (h : Layout words cs) (hw : w ∈ remark.language) : Layout words (w ++ cs) := by
  obtain ⟨text, rfl, hreturn, hnewline⟩ := mem_language_remark.mp hw
  have hcomment := Layout.comment hnewline hreturn (.newline h)
  simpa using hcomment

/-- Before what is laid out there may be a separator, and it opens a gap. -/
theorem of_separator (h : Layout words cs) (hw : w ∈ separator.language) :
    Layout words (w ++ cs) ∧ opensGap (w ++ cs) = true := by
  rw [separator, mem_language_seq] at hw
  obtain ⟨first, hfirst, more, hmore, rfl⟩ := hw
  have hrest : Layout words (more ++ cs) := by
    obtain ⟨pieces, rfl, hpieces⟩ := mem_language_many.mp hmore
    clear hmore
    induction pieces with
    | nil => exact h
    | cons piece pieces ih =>
      obtain ⟨hpiece, hpieces⟩ := List.forall_mem_cons.mp hpieces
      rw [List.flatten_cons, List.append_assoc]
      rcases mem_language_alt.mp hpiece with hpiece | hpiece
      · exact (of_space (ih hpieces) hpiece).1
      · exact of_remark (ih hpieces) hpiece
  rw [List.append_assoc]
  exact of_space hrest hfirst

theorem single (w : List Char) : Layout [w] (w ++ []) := .word rfl .nil

/-- Words with separators between them are laid out. -/
theorem of_separated (hseparators : ∀ s ∈ separators, s ∈ separator.language)
    (hlength : separators.length = words.length - 1) :
    Layout words (separated words separators) := by
  induction words generalizing separators with
  | nil => exact .nil
  | cons w words ih =>
    cases words with
    | nil =>
      obtain rfl := List.eq_nil_of_length_eq_zero hlength
      have hword := single w
      rwa [← List.append_nil (w ++ [])] at hword
    | cons w' words =>
      cases separators with
      | nil => simp at hlength
      | cons s separators =>
        obtain ⟨hs, hseparators⟩ := List.forall_mem_cons.mp hseparators
        obtain ⟨hlayout, hgap⟩ := of_separator (ih hseparators (by simpa using hlength)) hs
        have hword := Layout.word (w := w) hgap hlayout
        rwa [← List.append_assoc] at hword

end Layout

namespace Lexeme.Spelled

variable {l : Lexeme} {w : List Char}

/-- Only the rule of a lexeme matches its spelling as a whole. -/
theorem eq_rule (h : l.Spelled w) (hshort : isOverlong w = false) {r : Rule}
    (hw : w ∈ r.language) : r = l.rule := by
  obtain ⟨c, tail, rfl⟩ := List.exists_cons_of_ne_nil h.ne_nil
  have hfront : Front.of c (tail ++ []) = taking l (c :: tail) := Front.of_spelled h rfl
  rw [taking, hshort, List.append_nil] at hfront
  have hchosen := Front.chosen_of c tail
  rw [hfront] at hchosen
  generalize hlength : (c :: tail).length = n at hchosen
  cases hchosen with
  | lexeme hlongest _ _ =>
    rcases hlongest.longest r (c :: tail) hw (List.prefix_refl _) with hlt | ⟨hr, -⟩
    · omega
    · exact hr

end Lexeme.Spelled

/-- What a rule makes a lexeme of spells the lexeme, and has not too many digits. -/
theorem Rule.Makes.exists_spelled {r : Rule} {w : List Char} (h : r.Makes w) :
    isOverlong w = false ∧ ∃ l : Lexeme, l.Spelled w := by
  obtain ⟨l, hrule, hl⟩ := Rule.exists_spelled h.newline h.comment h.mem
  refine ⟨?_, l, hl⟩
  by_cases hr : r = .integer
  · simpa [isOverlong] using fun _ => h.digits hr
  · refine hl.isOverlong_eq_false ?_
    rintro n rfl
    exact hr hrule.symm

/-- **Layout does not matter.**  A text of words with separators between them has no illegal
    characters and the lexemes that the words have on their own. -/
theorem Scan.lexemes_of_separated (line : Nat) {words separators : List (List Char)}
    (hwords : ∀ w ∈ words, ∃ r : Rule, r.Makes w)
    (hseparators : ∀ s ∈ separators, s ∈ Layout.separator.language)
    (hlength : separators.length = words.length - 1) :
    (Scan.ofText line (String.ofList (Layout.separated words separators))).illegals = [] ∧
    (Scan.ofText line (String.ofList (Layout.separated words separators))).fault? = none ∧
    List.Forall₂ (fun l w => (∀ r : Rule, r.Makes w → r = l.rule) ∧ l.Spelled w ∧
        (Scan.ofText line (String.ofList w)).lexemes = [l])
      (Scan.ofText line (String.ofList (Layout.separated words separators))).lexemes words := by
  have hshort : ∀ w ∈ words, isOverlong w = false := by
    intro w hw
    obtain ⟨r, hr⟩ := hwords w hw
    exact hr.exists_spelled.1
  have hspelled : ∀ w ∈ words, ∃ l : Lexeme, l.Spelled w := by
    intro w hw
    obtain ⟨r, hr⟩ := hwords w hw
    exact hr.exists_spelled.2
  choose! spelled hspelled using hspelled
  have hall : AllSpelled (words.map spelled) words :=
    List.forall₂_map_left_iff.mpr (List.forall₂_same.mpr hspelled)
  have hnone : words.find? isOverlong = none := by simpa using hshort
  obtain ⟨hillegals, hfault, hlexemes⟩ :=
    Scan.walk_layout (Layout.of_separated hseparators hlength) hall line 0
  rw [Scan.ofText, String.toList_ofList, hlexemes hnone, hfault, hnone]
  refine ⟨hillegals, rfl, List.forall₂_map_left_iff.mpr (List.forall₂_same.mpr fun w hw => ?_)⟩
  refine ⟨fun r hr => (hspelled w hw).eq_rule (hshort w hw) hr.mem, hspelled w hw, ?_⟩
  -- a word by itself is a layout of one word
  have halone := Scan.walk_layout (Layout.single w) (.cons (hspelled w hw) .nil) line 0
  rw [List.append_nil] at halone
  rw [Scan.ofText, String.toList_ofList]
  exact halone.2.2 (by simpa using hshort w hw)

def scatteredWords : List (List Char) :=
  ["domain", "x-1'", "?v", "@e", ".5", "42", "<=>"].map String.toList

def scatteredSeparators : List (List Char) :=
  [" ", "\t//x\n", "\n \t", "\n//?//\n//\n", "  ", "\t"].map String.toList

theorem Scan.lexemes_of_scattered :
    (Scan.ofText 3 (String.ofList
      (Layout.separated scatteredWords scatteredSeparators))).illegals = [] ∧
    (Scan.ofText 3 (String.ofList
      (Layout.separated scatteredWords scatteredSeparators))).lexemes.map Lexeme.rule =
        [.ident, .ident, .variable, .enumValue, .real, .integer, .symbol .equivalent] := by
  have hmade : ∀ w ∈ scatteredWords, ∃ r ∈ Rule.order, r.Makes w := by decide +kernel
  have hwords : ∀ w ∈ scatteredWords, ∃ r : Rule, r.Makes w := fun w hw =>
    (hmade w hw).imp fun _ hr => hr.2
  have hseparators : ∀ s ∈ scatteredSeparators, s ∈ Layout.separator.language := by decide +kernel
  exact ⟨(Scan.lexemes_of_separated 3 hwords hseparators rfl).1, by decide +kernel⟩

end Rddl
