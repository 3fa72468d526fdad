/-
  Rddl/Proofs/Scan/Cuts.lean
  ==========================
  **Where a text can be cut.**

  What the scanner takes at a place may change with what stands behind it, so a text cannot
  be cut everywhere: `@` and `domain` side by side are one lexeme.  But some symbols, curly
  brackets and semicolons among them, stand in no lexeme behind another character.  The
  text up to such a symbol is read in the same way whatever stands behind it
  (`Scan.exists_readAs_symbol`), and so are the blanks, the comments and the illegal
  characters before a keyword (`Scan.exists_readAs_gap`).  Hence what starts with a keyword
  behind such a symbol and ends with such a symbol can be cut out of a text
  (`Scan.exists_cut`).
-/
import Mathlib.Data.List.Find
import Mathlib.Data.List.TakeWhile
import Rddl.Proofs.Scan.Spelling

namespace Rddl

open Lexeme

/-! ### Symbols and keywords -/

/-- A symbol of one character, which stands in no lexeme behind another character. -/
structure Symbol.Stops (s : Symbol) (b : Char) : Prop where
  spelling : s.spelling.toList = [b]
  front : ∀ cs, Front.of b cs = .lexeme (.symbol s) 1
  notName : isNameChar b = false
  notBreak : b ≠ '\r' ∧ b ≠ '\n'
  notMark : b ≠ '\'' ∧ b ≠ '.' ∧ b ≠ '/'
  notInside : ∀ s' ∈ Symbol.all, b ∉ s'.spelling.toList.tail

theorem Symbol.stops_leftCurly : Symbol.leftCurly.Stops '\x7b' :=
  ⟨rfl, fun _ => rfl, by decide, by decide, by decide, by decide⟩

theorem Symbol.stops_semicolon : Symbol.semicolon.Stops ';' :=
  ⟨rfl, fun _ => rfl, by decide, by decide, by decide, by decide⟩

/-- A character that stands in no lexeme behind another character, a prime at the end of a name
    apart. -/
structure Front.Ends (b : Char) : Prop where
  notName : isNameChar b = false
  notMark : b ≠ '.' ∧ b ≠ '/'
  notInside : ∀ s ∈ Symbol.all, b ∉ s.spelling.toList.tail

theorem Symbol.Stops.ends {s : Symbol} {b : Char} (hb : s.Stops b) : Front.Ends b :=
  ⟨hb.notName, hb.notMark.2, hb.notInside⟩

namespace Lexeme

theorem ofName_eq_keyword {cs : List Char} {k : Keyword} (h : ofName cs = .keyword k) :
    cs = k.spelling.toList := by
  simp only [ofName] at h
  split at h
  · next word hword =>
    cases h
    have hspelling := List.find?_some hword
    rw [beq_iff_eq.mp hspelling, String.toList_ofList]
  · cases h

theorem exists_isAlpha_spelling (k : Keyword) :
    ∃ a w, k.spelling.toList = a :: w ∧ a.isAlpha = true := by
  cases k <;> exact ⟨_, _, rfl, by decide⟩

theorem isNameChar_of_mem_spelling {k : Keyword} {c : Char} (hc : c ∈ k.spelling.toList) :
    isNameChar c = true := by
  have hall : k.spelling.toList.all isNameChar = true := by cases k <;> decide
  exact List.all_eq_true.mp hall c hc

theorem Spelled.eq_of_symbol {s : Symbol} {w : List Char} (h : Spelled (.symbol s) w) :
    w = s.spelling.toList := by
  generalize hl : Lexeme.symbol s = l at h
  cases h with
  | word hw =>
    simp only [ofName] at hl
    split at hl <;> cases hl
  | symbol s =>
    cases hl
    rfl
  | _ => cases hl

theorem Spelled.eq_of_keyword {k : Keyword} {w : List Char} (h : Spelled (.keyword k) w) :
    w = k.spelling.toList := by
  generalize hl : Lexeme.keyword k = l at h
  cases h with
  | word hw => exact ofName_eq_keyword hl.symm
  | _ => cases hl

end Lexeme

/-! ### What is taken before a character that ends it -/

namespace Front

theorem takeWhile_append_stop {p : Char → Bool} {b : Char} (u v : List Char) (hp : p b = false) :
    (u ++ b :: v).takeWhile p = u.takeWhile p := by
  induction u with
  | nil => simp [hp]
  | cons d u ih => rw [List.cons_append, List.takeWhile_cons, List.takeWhile_cons, ih]

theorem isPrefix_of_append_stop {b : Char} {w u v : List Char} (hw : b ∉ w)
    (h : w <+: u ++ b :: v) : w <+: u := by
  induction u generalizing w with
  | nil =>
    cases w with
    | nil => exact List.nil_prefix
    | cons d w =>
      obtain ⟨rfl, -⟩ := List.cons_prefix_cons.mp h
      simp at hw
  | cons d u ih =>
    cases w with
    | nil => exact List.nil_prefix
    | cons x w =>
      obtain ⟨rfl, htail⟩ := List.cons_prefix_cons.mp h
      rw [List.mem_cons, not_or] at hw
      exact (List.prefix_cons_inj x).mpr (ih hw.2 htail)

section Stop

variable {b : Char} (hb : Ends b) {c : Char} (u v : List Char)
include hb

theorem isDigit_stop : b.isDigit = false := by
  have hname := hb.notName
  rw [← Bool.not_eq_true]
  intro hdigit
  simp [isNameChar_of_isDigit hdigit] at hname

theorem nameRun_stop : nameRun (u ++ b :: v) = nameRun u := by
  rw [nameRun, takeWhile_append_stop u v hb.notName, nameRun]

theorem identFront?_stop (hprime : b = '\'' → c.isAlpha = true → nameRun u ≠ u) :
    identFront? (c :: (u ++ b :: v)) = identFront? (c :: u) := by
  by_cases hc : c.isAlpha = true
  · have hle : (nameRun u).length ≤ u.length := (nameRun_isPrefix u).length_le
    have hhead : ((u ++ b :: v).drop (nameRun u).length).head? = some '\'' ↔
        (u.drop (nameRun u).length).head? = some '\'' := by
      rw [List.drop_append_of_le_length hle]
      cases hdrop : u.drop (nameRun u).length with
      | nil =>
        -- the whole of `u` is a name, so that a prime behind it would belong to the name
        have hall : nameRun u = u :=
          (nameRun_isPrefix u).eq_of_length_le (List.drop_eq_nil_iff.mp hdrop)
        simpa using fun hb => hprime hb hc hall
      | cons d rest => simp
    simp only [identFront?, nameRun_stop hb, hhead]
  · simp only [identFront?, hc, Bool.false_eq_true, if_false]

theorem markedFront?_stop (mark : Char) :
    markedFront? mark (c :: (u ++ b :: v)) = markedFront? mark (c :: u) := by
  simp only [markedFront?, nameRun_stop hb]

theorem takeWhile_isDigit_stop :
    (c :: (u ++ b :: v)).takeWhile Char.isDigit = (c :: u).takeWhile Char.isDigit :=
  takeWhile_append_stop (c :: u) v (isDigit_stop hb)

theorem decimalFront?_stop : decimalFront? (c :: (u ++ b :: v)) = decimalFront? (c :: u) := by
  have hle := (List.takeWhile_prefix (l := c :: u) Char.isDigit).length_le
  generalize hn : ((c :: u).takeWhile Char.isDigit).length = n at hle
  have hdrop : (c :: (u ++ b :: v)).drop n = (c :: u).drop n ++ b :: v :=
    List.drop_append_of_le_length hle
  simp only [decimalFront?, takeWhile_isDigit_stop hb, hn, hdrop]
  cases (c :: u).drop n with
  | nil =>
    split
    · next heq => exact absurd (List.cons.inj heq).1 hb.notMark.1
    · rfl
  | cons d rest =>
    by_cases hd : d = '.'
    · subst hd
      simp only [List.cons_append, takeWhile_append_stop rest v (isDigit_stop hb)]
    · simp [hd]

theorem integerFront?_stop : integerFront? (c :: (u ++ b :: v)) = integerFront? (c :: u) := by
  simp only [integerFront?, takeWhile_isDigit_stop hb]

theorem symbolFront?_stop : symbolFront? (c :: (u ++ b :: v)) = symbolFront? (c :: u) := by
  refine List.find?_congr fun s' hs' => ?_
  have hinside := hb.notInside s' hs'
  cases hw : s'.spelling.toList with
  | nil => rfl
  | cons d w =>
    rw [hw, List.tail_cons] at hinside
    rw [Bool.eq_iff_iff, List.isPrefixOf_iff_prefix, List.isPrefixOf_iff_prefix,
      List.cons_prefix_cons, List.cons_prefix_cons]
    refine and_congr_right fun _ => ⟨isPrefix_of_append_stop hinside, fun h => ?_⟩
    exact h.trans (List.prefix_append u _)

/-- What is taken before a character that ends it, a comment apart, is what is taken at the end
    of the text. -/
theorem of_stop (hprime : b = '\'' → c.isAlpha = true → nameRun u ≠ u)
    (hcomment : ¬(c = '/' ∧ u.head? = some '/')) : Front.of c (u ++ b :: v) = Front.of c u := by
  have hhead : ¬(c = '/' ∧ (u ++ b :: v).head? = some '/') := by
    cases u with
    | nil => simp [hb.notMark.2]
    | cons d u => exact hcomment
  simp only [Front.of, identFront?_stop hb u v hprime, markedFront?_stop hb, decimalFront?_stop hb,
    integerFront?_stop hb, symbolFront?_stop hb, ← Bool.decide_and, hcomment, hhead,
    decide_false, Bool.false_eq_true, if_false]

end Stop

/-! ### Comments and illegal characters -/

theorem of_eq_comment_iff {c : Char} {cs : List Char} {n : Nat} :
    Front.of c cs = .comment n ↔ (c = '/' ∧ cs.head? = some '/') ∧
      ((c :: cs).takeWhile fun x => x ≠ '\r' && x ≠ '\n').length = n := by
  by_cases hslash : c = '/' ∧ cs.head? = some '/'
  · obtain ⟨rfl, hhead⟩ := hslash
    simp [Front.of, hhead]
  · have hne : Front.of c cs ≠ .comment n := by
      simp only [Front.of, ← Bool.decide_and, hslash, decide_false, Bool.false_eq_true, if_false]
      repeat' split
      all_goals simp
    exact iff_of_false hne fun h => hslash h.1

/-- A comment that ends before a character of its line is the same whatever follows. -/
theorem of_comment_append {b c : Char} {u v : List Char} {n : Nat} (hslash : b ≠ '/')
    (hbreak : b ≠ '\r' ∧ b ≠ '\n') (h : Front.of c (u ++ b :: v) = .comment n)
    (hn : n ≤ u.length + 1) (x : List Char) : Front.of c (u ++ x) = .comment n := by
  obtain ⟨⟨rfl, hhead⟩, hlength⟩ := of_eq_comment_iff.mp h
  rw [of_eq_comment_iff]
  refine ⟨⟨rfl, ?_⟩, ?_⟩
  · cases u with
    | nil => simp [hslash] at hhead
    | cons d u => exact hhead
  -- the line ends in what stands before the character, or it would be in the comment
  rw [← List.cons_append, List.takeWhile_append] at hlength ⊢
  split at hlength
  · next hall => simp [hbreak] at hlength; omega
  · next hend => rw [if_neg hend, hlength]

/-- A character that starts no lexeme, unless it marks a name. -/
structure StartsNothing (c : Char) : Prop where
  blank : c ≠ ' ' ∧ c ≠ '\t' ∧ c ≠ '\n'
  name : c.isAlphanum = false
  symbol : ∀ s ∈ Symbol.all, s.spelling.toList.head? ≠ some c

/-- The first character of a symbol is a symbol too. -/
theorem exists_symbolFront? {s : Symbol} {c : Char} (h : s.spelling.toList.head? = some c)
    (cs : List Char) : ∃ s', symbolFront? (c :: cs) = some s' := by
  have hsingle : ∀ s : Symbol, ∃ s' ∈ Symbol.all,
      s'.spelling.toList = s.spelling.toList.head?.toList := by
    intro s
    cases s <;> decide
  obtain ⟨s', hs', hspelling⟩ := hsingle s
  rw [← Option.isSome_iff_exists, symbolFront?, List.find?_isSome]
  refine ⟨s', hs', ?_⟩
  rw [hspelling, h]
  simp

theorem of_eq_blank_iff {c : Char} {cs : List Char} :
    Front.of c cs = .blank ↔ c = ' ' ∨ c = '\t' := by
  by_cases hblank : c = ' ' ∨ c = '\t'
  · simp [Front.of, hblank]
  · have hne : Front.of c cs ≠ .blank := by
      simp only [Front.of, ← Bool.decide_or, hblank, decide_false, Bool.false_eq_true, if_false]
      repeat' split
      all_goals simp
    exact iff_of_false hne hblank

theorem of_eq_newline_iff {c : Char} {cs : List Char} : Front.of c cs = .newline ↔ c = '\n' := by
  by_cases hnewline : c = '\n'
  · simp [Front.of, hnewline]
  · have hne : Front.of c cs ≠ .newline := by
      simp only [Front.of, hnewline, if_false]
      repeat' split
      all_goals simp
    exact iff_of_false hne hnewline

theorem startsNothing_of_illegal {c : Char} {cs : List Char} (h : Front.of c cs = .illegal) :
    StartsNothing c ∧ (c = '@' → nameRun cs = []) := by
  unfold Front.of at h
  split at h
  · cases h
  next hblank =>
  split at h
  · cases h
  next hnewline =>
  split at h
  · cases h
  split at h
  · cases h
  next hident =>
  split at h
  · cases h
  split at h
  · cases h
  next hmarked =>
  split at h
  · cases h
  split at h
  · split at h <;> cases h
  next hdigits =>
  split at h
  · cases h
  next hsymbol =>
  -- every branch before was refused, and the refusals tell what the first character is not
  refine ⟨⟨by simpa [hnewline] using hblank, ?_, fun s _ hs => ?_⟩, ?_⟩
  · rw [Char.isAlphanum, Bool.or_eq_false_iff, ← Bool.not_eq_true, ← Bool.not_eq_true]
    refine ⟨fun halpha => ?_, fun hdigit => ?_⟩
    · rw [identFront?, if_pos halpha] at hident
      simp only at hident
      split at hident <;> exact hident _ rfl
    · exact hdigits (c :: cs.takeWhile Char.isDigit) (by simp [integerFront?, hdigit])
  · obtain ⟨s', hs'⟩ := exists_symbolFront? hs cs
    exact hsymbol s' hs'
  · rintro rfl
    by_contra hrun
    exact hmarked ('@' :: nameRun cs) (by simp [markedFront?, hrun])

namespace StartsNothing

variable {c : Char} (hc : StartsNothing c)
include hc

theorem ne_symbol {s : Symbol} {d : Char} (hs : s ∈ Symbol.all) (hd : s.spelling.toList = [d]) :
    c ≠ d := by
  rintro rfl
  exact hc.symbol s hs (by rw [hd]; rfl)

theorem isNameChar_eq_false : isNameChar c = false := by
  have hminus : c ≠ '-' := hc.ne_symbol (s := .minus) (by decide) rfl
  have hunderscore : c ≠ '_' := hc.ne_symbol (s := .underscore) (by decide) rfl
  simp [isNameChar, hc.name, hminus, hunderscore]

theorem symbolFront?_eq_none (cs : List Char) : symbolFront? (c :: cs) = none := by
  refine List.find?_eq_none.mpr fun s hs hfront => ?_
  have hhead := hc.symbol s hs
  cases hw : s.spelling.toList with
  | nil => cases s <;> cases hw
  | cons d w =>
    rw [hw, List.isPrefixOf_iff_prefix, List.cons_prefix_cons] at hfront
    rw [hw, hfront.1] at hhead
    exact hhead rfl

theorem of_eq_illegal {cs : List Char} (hmark : c = '@' → nameRun cs = []) :
    Front.of c cs = .illegal := by
  have hname := hc.name
  rw [Char.isAlphanum, Bool.or_eq_false_iff] at hname
  have hident : identFront? (c :: cs) = none := by simp [identFront?, hname.1]
  have hquestion : c ≠ '?' := hc.ne_symbol (s := .question) (by decide) rfl
  have hvariable : markedFront? '?' (c :: cs) = none := by simp [markedFront?, hquestion]
  have henum : markedFront? '@' (c :: cs) = none := by
    by_cases hat : c = '@'
    · simp [markedFront?, hmark hat]
    · simp [markedFront?, hat]
  have hdot : c ≠ '.' := hc.ne_symbol (s := .dot) (by decide) rfl
  have hdecimal : decimalFront? (c :: cs) = none := by simp [decimalFront?, hname.2, hdot]
  have hinteger : integerFront? (c :: cs) = none := by simp [integerFront?, hname.2]
  have hslash : c ≠ '/' := hc.ne_symbol (s := .slash) (by decide) rfl
  simp [Front.of, hc.blank, hslash, hident, hvariable, henum, hdecimal, hinteger,
    hc.symbolFront?_eq_none]

end StartsNothing

/-! ### Pieces and what follows them -/

theorem exists_spelled_of_lexeme {c : Char} {cs : List Char} {l : Lexeme} {n : Nat}
    (h : Front.of c cs = .lexeme l n) : ∃ w, w <+: c :: cs ∧ l.Spelled w := by
  have htakes := takes_of c cs
  rw [h] at htakes
  cases htakes with
  | lexeme hw hl => exact ⟨_, hw, hl⟩

def delivered : Front → List Lexeme
  | .lexeme value _ => [value]
  | _ => []

def tailLength : Front → Nat
  | .comment length | .lexeme _ length => length - 1
  | _ => 0

def isLast : Front → Bool
  | .overlong _ => true
  | _ => false

/-- A prime behind a name belongs to it. -/
theorem nameRun_ne_of_prime {c : Char} {u v : List Char} (hc : c.isAlpha = true)
    (hlength : (Front.of c (u ++ '\'' :: v)).tailLength ≤ u.length) : nameRun u ≠ u := by
  intro hall
  have hname : nameRun (u ++ '\'' :: v) = u := by
    rw [nameRun, takeWhile_append_stop u v (by decide), ← nameRun, hall]
  have hident : identFront? (c :: (u ++ '\'' :: v)) = some (c :: u ++ ['\'']) := by
    simp [identFront?, hc, hname]
  rw [of_identFront? hident, tailLength] at hlength
  simp only [List.length_append, List.length_cons, List.length_nil] at hlength
  omega

/-- A piece that ends before a character of its line, which would end it, is the same before
    another such character, whatever follows. -/
theorem of_append_stop {b b' c : Char} (hb : Ends b) (hbreak : b ≠ '\r' ∧ b ≠ '\n')
    {u v : List Char} (hlength : (Front.of c (u ++ b :: v)).tailLength ≤ u.length) (hb' : Ends b')
    (hprime : b' ≠ '\'') (x : List Char) :
    Front.of c (u ++ b' :: x) = Front.of c (u ++ b :: v) := by
  by_cases hcomment : c = '/' ∧ u.head? = some '/'
  · have hfront : Front.of c (u ++ b :: v) = .comment _ := of_eq_comment_iff.mpr
      ⟨⟨hcomment.1, by simp [List.head?_append, hcomment.2]⟩, rfl⟩
    rw [hfront, tailLength] at hlength
    rw [hfront]
    exact of_comment_append hb.notMark.2 hbreak hfront (by omega) _
  · have hown : b = '\'' → c.isAlpha = true → nameRun u ≠ u := by
      rintro rfl hc
      exact nameRun_ne_of_prime hc hlength
    rw [of_stop hb' u x (fun h => absurd h hprime) hcomment, of_stop hb u v hown hcomment]

theorem isNameChar_of_delivered {c : Char} {cs : List Char} (hgap : (Front.of c cs).delivered = [])
    (hlast : (Front.of c cs).isLast = false) : isNameChar c = false := by
  cases hfront : Front.of c cs with
  | blank => rcases of_eq_blank_iff.mp hfront with rfl | rfl <;> decide
  | newline =>
    cases of_eq_newline_iff.mp hfront
    decide
  | comment n =>
    obtain ⟨⟨rfl, -⟩, -⟩ := of_eq_comment_iff.mp hfront
    decide
  | lexeme value n => simp [hfront, delivered] at hgap
  | overlong n => simp [hfront, isLast] at hlast
  | illegal => exact (startsNothing_of_illegal hfront).1.isNameChar_eq_false

theorem nameRun_ne_nil {a : Char} (ha : a.isAlphanum = true) (cs : List Char) :
    nameRun (a :: cs) ≠ [] := by
  have hname : isNameChar a = true := by simp [isNameChar, ha]
  rw [nameRun, List.takeWhile_cons_of_pos hname, ne_eq, List.reverse_eq_nil_iff,
    List.dropWhile_eq_nil_iff]
  intro hall
  have hnone := hall a (by simp)
  simp [ha] at hnone

/-- In a gap before a letter a piece is the same whatever follows the gap. -/
theorem of_append_gap {a c : Char} {g v : List Char} (ha : a.isAlpha = true)
    (hgap : (Front.of c (g ++ a :: v)).delivered = [])
    (hlast : (Front.of c (g ++ a :: v)).isLast = false)
    (hlength : (Front.of c (g ++ a :: v)).tailLength ≤ g.length)
    (hg : (Front.of c (g ++ a :: v)).tailLength = 0 →
      ∀ d, g.head? = some d → isNameChar d = false) (x : List Char) :
    Front.of c (g ++ x) = Front.of c (g ++ a :: v) := by
  have hname := isNameChar_of_isAlpha ha
  cases hfront : Front.of c (g ++ a :: v) with
  | blank => exact of_eq_blank_iff.mpr (of_eq_blank_iff.mp hfront)
  | newline => exact of_eq_newline_iff.mpr (of_eq_newline_iff.mp hfront)
  -- a letter does not end a comment, so what ends it stands in the gap
  | comment n =>
    rw [hfront, tailLength] at hlength
    exact of_comment_append (ne_of_isNameChar hname (by decide))
      ⟨ne_of_isNameChar hname (by decide), ne_of_isNameChar hname (by decide)⟩ hfront (by omega) x
  | lexeme value n => simp [hfront, delivered] at hgap
  | overlong n => simp [hfront, isLast] at hlast
  -- an illegal character stays so unless it is an `@` that gets a name
  | illegal =>
    obtain ⟨hc, hmark⟩ := startsNothing_of_illegal hfront
    refine hc.of_eq_illegal fun hat => ?_
    cases g with
    | nil => exact absurd (hmark hat) (nameRun_ne_nil (by simp [Char.isAlphanum, ha]) v)
    | cons d g => simp [nameRun, hg (by rw [hfront]; rfl) d rfl]

end Front

/-! ### Scans and what follows them -/

namespace Scan

open Front

/-- A scan delivers the lexemes and goes on as another one. -/
structure Leads (s : Scan) (ls : List Lexeme) (s' : Scan) : Prop where
  lexemes : s.lexemes = ls ++ s'.lexemes
  fault : s.fault? = s'.fault?

theorem Leads.trans {s s' s'' : Scan} {ls ls' : List Lexeme} (h : s.Leads ls s')
    (h' : s'.Leads ls' s'') : s.Leads (ls ++ ls') s'' :=
  ⟨by rw [h.lexemes, h'.lexemes, List.append_assoc], h.fault.trans h'.fault⟩

/-- Lines and positions change nothing in the lexemes. -/
theorem walk_leads (skip line position line' position' : Nat) (cs : List Char) :
    (walk skip line position cs).Leads [] (walk skip line' position' cs) := by
  induction cs generalizing skip line position line' position' with
  | nil => exact ⟨rfl, rfl⟩
  | cons c cs ih =>
    cases skip with
    | succ skip => exact ih skip _ _ _ _
    | zero =>
      simp only [walk]
      cases Front.of c cs with
      | lexeme value length =>
        have hrest := ih (length - 1) line (position + 1) line' (position' + 1)
        exact ⟨congrArg (value :: ·) hrest.lexemes, hrest.fault⟩
      | overlong digits => exact ⟨rfl, rfl⟩
      | illegal =>
        have hrest := ih 0 line (position + 1) line' (position' + 1)
        exact ⟨hrest.lexemes, hrest.fault⟩
      | _ => exact ih _ _ _ _ _

/-- A scan delivers the lexeme of its first piece and goes on behind the piece. -/
theorem walk_cons_leads {c : Char} {cs : List Char} (hlast : (Front.of c cs).isLast = false)
    (line position line' position' : Nat) :
    (walk 0 line position (c :: cs)).Leads (Front.of c cs).delivered
      (walk (Front.of c cs).tailLength line' position' cs) := by
  have hrest : ∀ skip line, (walk skip line (position + 1) cs).Leads []
      (walk skip line' position' cs) := fun _ _ => walk_leads ..
  rw [walk]
  cases hfront : Front.of c cs with
  | lexeme value length =>
    have h := hrest (length - 1) line
    exact ⟨congrArg (value :: ·) h.lexemes, h.fault⟩
  | overlong digits => simp [hfront, Front.isLast] at hlast
  | illegal =>
    have h := hrest 0 line
    exact ⟨h.lexemes, h.fault⟩
  | _ => exact hrest _ _

/-- Characters are read as lexemes whatever follows them.  The first `skip` of them belong to
    a piece already taken. -/
def ReadAs (skip : Nat) (u : List Char) (ls : List Lexeme) : Prop :=
  ∀ v line position line' position',
    (walk skip line position (u ++ v)).Leads ls (walk 0 line' position' v)

namespace ReadAs

variable {skip : Nat} {c : Char} {u u' : List Char} {ls ls' : List Lexeme}

theorem nil : ReadAs 0 [] [] := fun v _ _ _ _ => walk_leads 0 _ _ _ _ v

theorem skipped (h : ReadAs skip u ls) (c : Char) : ReadAs (skip + 1) (c :: u) ls :=
  fun v line position => h v line (position + 1)

theorem cons {front : Front} (hfront : ∀ v, Front.of c (u ++ v) = front)
    (hlast : front.isLast = false) (h : ReadAs front.tailLength u ls) :
    ReadAs 0 (c :: u) (front.delivered ++ ls) := by
  intro v line position line' position'
  have hpiece := walk_cons_leads ((congrArg isLast (hfront v)).trans hlast) line position 0 0
  rw [hfront v] at hpiece
  exact hpiece.trans (h v 0 0 line' position')

theorem symbol {s : Symbol} {b : Char} (hb : s.Stops b) : ReadAs 0 [b] [.symbol s] := by
  have hread : ReadAs 0 [b] ((Front.lexeme (.symbol s) 1).delivered ++ []) :=
    cons hb.front rfl nil
  exact hread

theorem append (h : ReadAs skip u ls) (h' : ReadAs 0 u' ls') :
    ReadAs skip (u ++ u') (ls ++ ls') := by
  intro v line position line' position'
  rw [List.append_assoc]
  exact (h (u' ++ v) line position 0 0).trans (h' v 0 0 line' position')

end ReadAs

/-- A piece before a symbol that ends it can be put before what is read up to the symbol. -/
theorem ReadAs.cons_of_stops {s : Symbol} {b c : Char} (hb : s.Stops b) {u v : List Char}
    {ls : List Lexeme} (hlast : (Front.of c (u ++ b :: v)).isLast = false)
    (hlength : (Front.of c (u ++ b :: v)).tailLength ≤ u.length)
    (h : ReadAs (Front.of c (u ++ b :: v)).tailLength (u ++ [b]) ls) :
    ReadAs 0 (c :: u ++ [b]) ((Front.of c (u ++ b :: v)).delivered ++ ls) := by
  have hfront : ∀ x, Front.of c (u ++ [b] ++ x) = Front.of c (u ++ b :: v) := by
    intro x
    rw [List.append_assoc]
    exact of_append_stop hb.ends hb.notBreak hlength hb.ends hb.notMark.1 x
  exact .cons hfront hlast h

theorem isLast_of_mem_lexemes {c : Char} {cs : List Char} {line position : Nat} {l : Lexeme}
    (h : l ∈ (walk 0 line position (c :: cs)).lexemes) : (Front.of c cs).isLast = false := by
  cases hfront : Front.of c cs with
  | overlong digits => simp [walk, hfront] at h
  | _ => rfl

/-- **The text up to a symbol that ends what stands before it is read in one way.** -/
theorem exists_readAs_symbol {s : Symbol} {b : Char} (hb : s.Stops b) {skip line position : Nat}
    {cs : List Char} {ls ls' : List Lexeme}
    (h : (walk skip line position cs).lexemes = ls ++ .symbol s :: ls') :
    ∃ u v, cs = u ++ b :: v ∧ skip ≤ u.length ∧ ReadAs skip (u ++ [b]) (ls ++ [.symbol s]) := by
  induction cs generalizing skip line position ls with
  | nil => simp [walk] at h
  | cons c cs ih =>
    cases skip with
    | succ skip =>
      obtain ⟨u, v, rfl, hskip, hread⟩ := ih h
      exact ⟨c :: u, v, rfl, Nat.succ_le_succ hskip, hread.skipped c⟩
    | zero =>
      have hmem : .symbol s ∈ (walk 0 line position (c :: cs)).lexemes := by simp [h]
      have hlast := isLast_of_mem_lexemes hmem
      have hpiece := (walk_cons_leads hlast line position 0 0).lexemes
      rw [h] at hpiece
      have hbehind : ∀ rest, ls = (Front.of c cs).delivered ++ rest →
          rest ++ .symbol s :: ls' = (walk (Front.of c cs).tailLength 0 0 cs).lexemes →
          ∃ u v, c :: cs = u ++ b :: v ∧ 0 ≤ u.length ∧
            ReadAs 0 (u ++ [b]) (ls ++ [.symbol s]) := by
        intro rest hls hrest
        obtain ⟨u, v, rfl, hskip, hread⟩ := ih hrest.symm
        refine ⟨c :: u, v, rfl, Nat.zero_le _, ?_⟩
        rw [hls, List.append_assoc]
        exact .cons_of_stops hb hlast hskip hread
      -- either the symbol is the first piece, or it stands behind it
      cases hfront : Front.of c cs with
      | lexeme l n =>
        simp only [hfront, delivered, tailLength] at hpiece hbehind
        cases ls with
        | nil =>
          cases hpiece
          obtain ⟨w, hw, hspelled⟩ := exists_spelled_of_lexeme hfront
          rw [hspelled.eq_of_symbol, hb.spelling, List.cons_prefix_cons] at hw
          obtain ⟨rfl, -⟩ := hw
          exact ⟨[], cs, rfl, Nat.le_refl _, .symbol hb⟩
        | cons l' ls =>
          obtain ⟨rfl, hrest⟩ := List.cons.inj hpiece
          exact hbehind ls rfl hrest
      | overlong n => simp [hfront, isLast] at hlast
      | _ =>
        simp only [hfront, delivered] at hpiece hbehind
        exact hbehind ls rfl hpiece

/-- **What stands before a keyword is read as nothing, whatever follows it.** -/
theorem exists_readAs_gap {k : Keyword} {skip line position : Nat} {cs : List Char}
    {ls : List Lexeme} (h : (walk skip line position cs).lexemes = .keyword k :: ls) :
    ∃ g v, cs = g ++ (k.spelling.toList ++ v) ∧ skip ≤ g.length ∧ ReadAs skip g [] ∧
      (skip = 0 → ∀ d, g.head? = some d → isNameChar d = false) := by
  induction cs generalizing skip line position with
  | nil => simp [walk] at h
  | cons c cs ih =>
    cases skip with
    | succ skip =>
      obtain ⟨g, v, rfl, hskip, hread, -⟩ := ih h
      exact ⟨c :: g, v, rfl, Nat.succ_le_succ hskip, hread.skipped c, by simp⟩
    | zero =>
      have hmem : .keyword k ∈ (walk 0 line position (c :: cs)).lexemes := by simp [h]
      have hlast := isLast_of_mem_lexemes hmem
      have hpiece := (walk_cons_leads hlast line position 0 0).lexemes
      rw [h] at hpiece
      by_cases hgap : (Front.of c cs).delivered = []
      · rw [hgap, List.nil_append] at hpiece
        obtain ⟨g, v, hcs, hskip, hread, hhead⟩ := ih hpiece.symm
        obtain ⟨a, w, hword, ha⟩ := exists_isAlpha_spelling k
        have hname := isNameChar_of_delivered hgap hlast
        rw [hword, List.cons_append] at hcs
        refine ⟨c :: g, v, by rw [hcs, hword]; rfl, Nat.zero_le _, ?_, ?_⟩
        · subst hcs
          have hpiece := ReadAs.cons (of_append_gap ha hgap hlast hskip hhead) hlast hread
          rwa [hgap] at hpiece
        · rintro - d hd
          cases hd
          exact hname
      · -- the first piece is the keyword
        cases hfront : Front.of c cs with
        | lexeme l n =>
          simp only [hfront, delivered] at hpiece
          cases hpiece
          obtain ⟨w, ⟨v, hv⟩, hspelled⟩ := exists_spelled_of_lexeme hfront
          rw [hspelled.eq_of_keyword] at hv
          exact ⟨[], v, hv.symm, Nat.le_refl _, .nil, by simp⟩
        | _ => simp [hfront, delivered] at hgap

theorem ReadAs.lexemes_of_append {u v : List Char} {ls ls' : List Lexeme} {line position : Nat}
    (hu : ReadAs 0 u ls) (h : (walk 0 line position (u ++ v)).lexemes = ls ++ ls') :
    (walk 0 0 0 v).lexemes = ls' := by
  rw [(hu v line position 0 0).lexemes] at h
  exact List.append_cancel_left h

/-- **What starts with a keyword behind a symbol and ends with a symbol can be cut out of a text**,
    if each of the two symbols ends what stands before it. -/
theorem exists_cut {k : Keyword} {s s' : Symbol} {b b' : Char} (hb : s.Stops b)
    (hb' : s'.Stops b') {line position : Nat} {cs : List Char} {before ls after : List Lexeme}
    (h : (walk 0 line position cs).lexemes =
      before ++ .symbol s :: .keyword k :: (ls ++ .symbol s' :: after)) :
    ∃ u w v, cs = u ++ (k.spelling.toList ++ w ++ [b']) ++ v ∧
      ReadAs 0 u (before ++ [.symbol s]) ∧
      ReadAs 0 (k.spelling.toList ++ w ++ [b']) (.keyword k :: (ls ++ [.symbol s'])) := by
  obtain ⟨u, rest, rfl, -, hu⟩ := exists_readAs_symbol hb h
  rw [List.append_cons, List.append_cons before] at h
  have hrest := hu.lexemes_of_append h
  -- between the symbol and the keyword there is a gap, which goes with what stands before it
  obtain ⟨g, rest', rfl, -, hg, -⟩ := exists_readAs_gap hrest
  have hrest' : (walk 0 0 0 (k.spelling.toList ++ rest')).lexemes =
      (.keyword k :: ls) ++ .symbol s' :: after := hg.lexemes_of_append hrest
  obtain ⟨w, v, hsplit, -, hw⟩ := exists_readAs_symbol hb' hrest'
  -- the spelling of the keyword does not go beyond the next symbol
  have hword : k.spelling.toList <+: w := by
    refine isPrefix_of_append_stop (fun hmem => ?_) ⟨rest', hsplit⟩
    exact ne_of_isNameChar (isNameChar_of_mem_spelling hmem) hb'.notName rfl
  obtain ⟨w, rfl⟩ := hword
  refine ⟨u ++ [b] ++ g, w, v, ?_, ?_, hw⟩
  · rw [hsplit]
    simp
  · simpa using hu.append hg

end Scan

end Rddl
