/-
  Rddl/Proofs/Scan/Layout.lean
  ============================
  **Words laid out in a text.**

  `Layout words cs` says that the characters `cs` are the words in order, with gaps
  between them.  A gap starts with a blank, a tab or a newline and goes on with more of
  them and with comments.  Scanning such a text skips nothing but the gaps, and ends
  early only at an integer with too many digits (`Scan.walk_layout`).
-/
import Mathlib.Data.List.Forall2
import Rddl.Proofs.Scan.Spelling

namespace Rddl

open Lexeme Front

/-- Words that stand in a text one after another, with gaps between them. -/
inductive Layout : List (List Char) → List Char → Prop
  | nil : Layout [] []
  | blank {words cs} : Layout words cs → Layout words (' ' :: cs)
  | tab {words cs} : Layout words cs → Layout words ('\t' :: cs)
  | newline {words cs} : Layout words cs → Layout words ('\n' :: cs)
  | comment {words remark cs} : '\n' ∉ remark → '\r' ∉ remark → Layout words ('\n' :: cs) →
      Layout words ('/' :: '/' :: (remark ++ '\n' :: cs))
  | word {w words cs} : opensGap cs = true → Layout words cs → Layout (w :: words) (w ++ cs)

namespace Layout

def spaced (words : List (List Char)) : List Char := words.flatMap fun w => w ++ [' ']

theorem opensGap_blank (cs : List Char) : opensGap (' ' :: cs) = true := rfl

theorem of_spaced (words : List (List Char)) : Layout words (spaced words) := by
  induction words with
  | nil => exact .nil
  | cons w words ih =>
    have hword : Layout (w :: words) (w ++ ' ' :: spaced words) :=
      .word (opensGap_blank _) (.blank ih)
    simpa [spaced] using hword

end Layout

/-! ### Scanning a layout -/

abbrev Lexeme.AllSpelled (ls : List Lexeme) (words : List (List Char)) : Prop :=
  List.Forall₂ Lexeme.Spelled ls words

namespace Scan

theorem walk_append (w : List Char) (line position : Nat) (cs : List Char) :
    Scan.walk w.length line position (w ++ cs) = .walk 0 line (position + w.length) cs := by
  induction w generalizing position with
  | nil => rfl
  | cons c w ih =>
    rw [List.length_cons, List.cons_append, walk, ih, Nat.add_right_comm]
    rfl

theorem of_comment {remark : List Char} (hnewline : '\n' ∉ remark) (hreturn : '\r' ∉ remark)
    (cs : List Char) :
    Front.of '/' ('/' :: (remark ++ '\n' :: cs)) = .comment (remark.length + 2) := by
  have htake : (remark ++ '\n' :: cs).takeWhile (fun x => x ≠ '\r' && x ≠ '\n') = remark := by
    refine takeWhile_append_of_head? (fun c hc => ?_) fun c hc => ?_
    · have hr : c ≠ '\r' := fun h => hreturn (h ▸ hc)
      have hn : c ≠ '\n' := fun h => hnewline (h ▸ hc)
      simp [hr, hn]
    · cases hc
      decide
  simp only [ne_eq, decide_not] at htake
  simp [Front.of, htake]

/-- **A text with words in a layout is scanned into the lexemes that they spell.**  Only an
    integer with too many digits ends the scan early, and nothing is illegal. -/
theorem walk_layout {ls : List Lexeme} {words : List (List Char)} {cs : List Char}
    (hlayout : Layout words cs) (hspelled : AllSpelled ls words) (line position : Nat) :
    (Scan.walk 0 line position cs).illegals = [] ∧
    (Scan.walk 0 line position cs).fault? =
      (words.find? isOverlong).map (fun w => .overlongInteger w.length) ∧
    (words.find? isOverlong = none → (Scan.walk 0 line position cs).lexemes = ls) := by
  induction hlayout generalizing ls line position with
  | nil =>
    cases hspelled
    exact ⟨rfl, rfl, fun _ => rfl⟩
  | blank _ ih => exact ih hspelled line (position + 1)
  | tab _ ih => exact ih hspelled line (position + 1)
  | newline _ ih => exact ih hspelled (line + 1) (position + 1)
  | @comment words remark cs hnewline hreturn _ ih =>
    have hwalk : Scan.walk 0 line position ('/' :: '/' :: (remark ++ '\n' :: cs)) =
        .walk 0 line (position + 1 + 1 + remark.length) ('\n' :: cs) := by
      rw [walk, of_comment hnewline hreturn]
      exact walk_append remark line (position + 1 + 1) ('\n' :: cs)
    rw [hwalk]
    exact ih hspelled line _
  | @word w words cs hgap _ ih =>
    cases hspelled with
    | @cons l _ ls _ hl hls =>
      obtain ⟨c, tail, rfl⟩ := List.exists_cons_of_ne_nil hl.ne_nil
      have hfront := of_spelled hl hgap
      -- a number that is too long ends the scan, whatever comes behind it
      by_cases hlong : isOverlong (c :: tail) = true
      · rw [taking, if_pos hlong] at hfront
        rw [List.cons_append, walk, hfront, List.find?_cons_of_pos hlong]
        exact ⟨rfl, rfl, fun h => by cases h⟩
      · rw [taking, if_neg hlong] at hfront
        have hwalk : Scan.walk 0 line position (c :: tail ++ cs) =
            .token ⟨l, line, position⟩ (.walk 0 line (position + 1 + tail.length) cs) := by
          rw [List.cons_append, walk, hfront]
          exact congrArg (Scan.token _) (walk_append tail line (position + 1) cs)
        obtain ⟨hillegals, hfault, hlexemes⟩ := ih hls line (position + 1 + tail.length)
        rw [hwalk, List.find?_cons_of_neg hlong]
        refine ⟨hillegals, hfault, fun hnone => ?_⟩
        rw [lexemes_token, hlexemes hnone]

end Scan

end Rddl
