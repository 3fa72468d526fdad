/-
  Rddl/Proofs/Scan/Spelling.lean
  ==============================
  **How lexemes are spelled.**

  `Lexeme.Spelled l w` says that the characters `w` spell the lexeme `l`.  What the scanner
  takes at the front of a text spells the lexeme that it makes of it
  (`Front.takes_of`).  Conversely a spelled lexeme is taken whole where a gap
  follows it (`Front.of_spelled`); only an integer with too many digits is not.
-/
import Rddl.Proofs.Scan.Names

namespace Rddl

namespace Lexeme

/-! ### Runs of name characters -/

/-- Whether characters are name characters of which the last is a letter or a digit. -/
def isRun (cs : List Char) : Bool := cs.all isNameChar && cs.getLast?.all Char.isAlphanum

def withoutPrime (cs : List Char) : List Char :=
  if cs.getLast? = some '\'' then cs.dropLast else cs

/-- Whether characters are a keyword or an identifier as a whole. -/
def isWord : List Char → Bool
  | [] => false
  | c :: cs => c.isAlpha && isRun (withoutPrime cs)

def isNumeral (cs : List Char) : Bool := !cs.isEmpty && cs.all Char.isDigit

theorem nameRun_isPrefix (cs : List Char) : nameRun cs <+: cs := by
  refine List.IsPrefix.trans ?_ (List.takeWhile_prefix isNameChar)
  have hsuffix := List.reverse_prefix.mpr
    (List.dropWhile_suffix (l := (cs.takeWhile isNameChar).reverse) fun c => !c.isAlphanum)
  rwa [List.reverse_reverse] at hsuffix

theorem isRun_nameRun (cs : List Char) : isRun (nameRun cs) = true := by
  have hlast := List.head?_dropWhile_not (fun c : Char => !c.isAlphanum)
    (cs.takeWhile isNameChar).reverse
  rw [isRun, Bool.and_eq_true, List.all_eq_true]
  refine ⟨fun c hc => isNameChar_of_mem_nameRun hc, ?_⟩
  rw [nameRun, List.getLast?_reverse]
  split at hlast
  · next c hc => simpa [hc] using hlast
  · next hc => simp [hc]

theorem isNameChar_of_isRun {run : List Char} (h : isRun run = true) {c : Char} (hc : c ∈ run) :
    isNameChar c = true := by
  rw [isRun, Bool.and_eq_true, List.all_eq_true] at h
  exact h.1 c hc

theorem takeWhile_append_of_head? {p : Char → Bool} {run rest : List Char}
    (hrun : ∀ c ∈ run, p c = true) (hrest : ∀ c, rest.head? = some c → p c = false) :
    (run ++ rest).takeWhile p = run := by
  rw [List.takeWhile_append_of_pos hrun]
  cases rest with
  | nil => simp
  | cons c rest => simp [hrest c rfl]

/-- The last character of a run is not dropped. -/
theorem dropWhile_reverse_of_isRun {run : List Char} (h : isRun run = true) :
    run.reverse.dropWhile (fun c => !c.isAlphanum) = run.reverse := by
  rw [isRun, Bool.and_eq_true, ← List.head?_reverse] at h
  cases hreverse : run.reverse with
  | nil => rfl
  | cons c cs =>
    have hc : c.isAlphanum = true := by simpa [hreverse] using h.2
    simp [hc]

/-- A run ends before a character that is no name character. -/
theorem nameRun_append {run rest : List Char} (hrun : isRun run = true)
    (hrest : ∀ c, rest.head? = some c → isNameChar c = false) : nameRun (run ++ rest) = run := by
  have htake : (run ++ rest).takeWhile isNameChar = run :=
    takeWhile_append_of_head? (fun c hc => isNameChar_of_isRun hrun hc) hrest
  rw [nameRun, htake, dropWhile_reverse_of_isRun hrun, List.reverse_reverse]

theorem exists_of_isWord {w : List Char} (h : isWord w = true) :
    ∃ c run prime, w = c :: (run ++ prime) ∧ c.isAlpha = true ∧ isRun run = true ∧
      (prime = [] ∨ prime = ['\'']) := by
  cases w with
  | nil => simp [isWord] at h
  | cons c cs =>
    rw [isWord, Bool.and_eq_true] at h
    obtain ⟨halpha, hrun⟩ := h
    by_cases hprime : cs.getLast? = some '\''
    · rw [withoutPrime, if_pos hprime] at hrun
      obtain ⟨run, rfl⟩ := List.getLast?_eq_some_iff.mp hprime
      rw [List.dropLast_concat] at hrun
      exact ⟨c, run, ['\''], rfl, halpha, hrun, .inr rfl⟩
    · rw [withoutPrime, if_neg hprime] at hrun
      exact ⟨c, cs, [], by simp, halpha, hrun, .inl rfl⟩

/-! ### Spellings -/

inductive Spelled : Lexeme → List Char → Prop
  | word {w} : isWord w = true → Spelled (ofName w) w
  | «variable» {run} : isRun run = true → run ≠ [] →
      Spelled (.variable (String.ofList ('?' :: run))) ('?' :: run)
  | enumValue {run} : isRun run = true → run ≠ [] →
      Spelled (.enumValue (String.ofList ('@' :: run))) ('@' :: run)
  | real {whole fraction} : whole.all Char.isDigit = true → isNumeral fraction = true →
      Spelled (.real (.ofDecimal false (digitsValue (whole ++ fraction)) (-fraction.length)))
        (whole ++ '.' :: fraction)
  | integer {digits} : isNumeral digits = true → Spelled (.integer (digitsValue digits)) digits
  | symbol (s : Symbol) : Spelled (.symbol s) s.spelling.toList

/-- Whether characters are an integer with more digits than can be read. -/
def isOverlong (w : List Char) : Bool := isNumeral w && decide (digitLimit < w.length)

theorem isNameChar_of_isDigit {c : Char} (h : c.isDigit = true) : isNameChar c = true := by
  simp [isNameChar, Char.isAlphanum, h]

theorem ofName_ne_integer (cs : List Char) (n : Nat) : ofName cs ≠ .integer n := by
  simp only [ofName]
  split <;> simp

theorem isAlpha_of_isDigit {c : Char} (h : c.isDigit = true) : c.isAlpha = false := by
  unfold Char.isDigit at h
  unfold Char.isAlpha Char.isUpper Char.isLower
  grind

theorem ne_of_isNameChar {c d : Char} (h : isNameChar c = true) (hd : isNameChar d = false) :
    c ≠ d := by
  rintro rfl
  simp [h] at hd

theorem isDigit_of_isNumeral {digits : List Char} (h : isNumeral digits = true) {c : Char}
    (hc : c ∈ digits) : c.isDigit = true := by
  rw [isNumeral, Bool.and_eq_true, List.all_eq_true] at h
  exact h.2 c hc

namespace Spelled

variable {l : Lexeme} {w : List Char}

/-- No lexeme goes over the end of a line. -/
theorem newline_notMem (h : l.Spelled w) : '\n' ∉ w := by
  -- a newline is no name character, and so no digit either
  have hname : ∀ {cs : List Char}, (∀ c ∈ cs, isNameChar c = true) → '\n' ∉ cs := by
    intro cs hcs hmem
    exact absurd (hcs _ hmem) (by decide)
  have hdigits : ∀ {cs : List Char}, (∀ c ∈ cs, c.isDigit = true) → '\n' ∉ cs := by
    intro cs hcs
    exact hname fun c hc => isNameChar_of_isDigit (hcs c hc)
  cases h with
  | word hw =>
    obtain ⟨c, run, prime, rfl, halpha, hrun, hprime⟩ := exists_of_isWord hw
    have hc : '\n' ≠ c := Ne.symm (ne_of_isNameChar (isNameChar_of_isAlpha halpha) (by decide))
    have hrun := hname fun c hc => isNameChar_of_isRun hrun hc
    rcases hprime with rfl | rfl
    · simp [hc, hrun]
    · simp [hc, hrun]
  | «variable» hrun _ => simp [hname fun c hc => isNameChar_of_isRun hrun hc]
  | enumValue hrun _ => simp [hname fun c hc => isNameChar_of_isRun hrun hc]
  | real hwhole hfraction =>
    have hwhole := hdigits (List.all_eq_true.mp hwhole)
    have hfraction := hdigits fun c hc => isDigit_of_isNumeral hfraction hc
    simp [hwhole, hfraction]
  | integer hdigits' => exact hdigits fun c hc => isDigit_of_isNumeral hdigits' hc
  | symbol s => cases s <;> decide

theorem ne_nil (h : l.Spelled w) : w ≠ [] := by
  cases h with
  | word hw =>
    rintro rfl
    simp [isWord] at hw
  | «variable» _ _ => simp
  | enumValue _ _ => simp
  | real _ _ => simp
  | integer hdigits =>
    rintro rfl
    simp [isNumeral] at hdigits
  | symbol s => cases s <;> decide

/-- Only integers can have too many digits. -/
theorem isOverlong_eq_false (h : l.Spelled w) (hl : ∀ n, l ≠ .integer n) :
    isOverlong w = false := by
  have hhead : ∀ {c : Char} {tail : List Char}, c.isDigit = false →
      isOverlong (c :: tail) = false := by
    intro c tail hc
    simp [isOverlong, isNumeral, hc]
  cases h with
  | word hw =>
    obtain ⟨c, run, prime, rfl, halpha, -, -⟩ := exists_of_isWord hw
    refine hhead ?_
    rw [← Bool.not_eq_true]
    intro hdigit
    simp [isAlpha_of_isDigit hdigit] at halpha
  | «variable» _ _ => exact hhead (by decide)
  | enumValue _ _ => exact hhead (by decide)
  | real _ _ => simp [isOverlong, isNumeral]
  | integer _ => exact absurd rfl (hl _)
  | symbol s => cases s <;> rfl

end Spelled

end Lexeme

/-! ### What the scanner takes -/

namespace Lexeme

theorem word_of_identFront? {cs w : List Char} (h : identFront? cs = some w) :
    isWord w = true ∧ w <+: cs := by
  unfold identFront? at h
  split at h
  · simp at h
  · next c cs =>
    split at h
    · next halpha =>
      have hprefix := nameRun_isPrefix cs
      simp only at h
      split at h
      · -- a prime behind the run belongs to the word
        next hprime =>
        cases h
        refine ⟨?_, ?_⟩
        · simp [isWord, halpha, withoutPrime, isRun_nameRun]
        · obtain ⟨tail, htail⟩ := List.head?_eq_some_iff.mp hprime
          have hsplit := List.prefix_iff_eq_append.mp hprefix
          rw [htail] at hsplit
          exact ⟨tail, by simp [hsplit]⟩
      · cases h
        -- without one the run is the whole word, since no run ends in a prime
        have hrun : withoutPrime (nameRun cs) = nameRun cs := by
          refine if_neg fun hlast => ?_
          exact absurd (isNameChar_of_mem_nameRun (List.mem_of_getLast? hlast)) (by decide)
        refine ⟨by simp [isWord, halpha, hrun, isRun_nameRun], ?_⟩
        exact (List.prefix_cons_inj c).mpr hprefix
    · simp at h

theorem run_of_markedFront? {mark : Char} {cs w : List Char} (h : markedFront? mark cs = some w) :
    ∃ run, w = mark :: run ∧ isRun run = true ∧ run ≠ [] ∧ w <+: cs := by
  unfold markedFront? at h
  split at h
  · simp at h
  · next c cs =>
    simp only at h
    split at h
    · next hmark =>
      cases h
      simp only [Bool.and_eq_true, decide_eq_true_eq, Bool.not_eq_true',
        List.isEmpty_eq_false_iff] at hmark
      obtain ⟨rfl, hne⟩ := hmark
      have hprefix : c :: nameRun cs <+: c :: cs :=
        (List.prefix_cons_inj c).mpr (nameRun_isPrefix cs)
      exact ⟨nameRun cs, rfl, isRun_nameRun cs, hne, hprefix⟩
    · simp at h

theorem digits_of_decimalFront? {cs whole fraction : List Char}
    (h : decimalFront? cs = some (whole, fraction)) :
    whole.all Char.isDigit = true ∧ isNumeral fraction = true ∧
      whole ++ '.' :: fraction <+: cs := by
  unfold decimalFront? at h
  simp only at h
  split at h
  · next rest hrest =>
    split at h
    · simp at h
    · next hne =>
      cases h
      refine ⟨List.all_takeWhile, by simp [isNumeral, hne], ?_⟩
      -- the digits before the point, the point, and the digits behind it, one after another
      have hsplit := List.prefix_iff_eq_append.mp (List.takeWhile_prefix (l := cs) Char.isDigit)
      rw [hrest] at hsplit
      have hfraction : '.' :: rest.takeWhile Char.isDigit <+: '.' :: rest :=
        (List.prefix_cons_inj '.').mpr (List.takeWhile_prefix _)
      obtain ⟨tail, htail⟩ := hfraction
      exact ⟨tail, by rw [List.append_assoc, htail, hsplit]⟩
  · simp at h

theorem digits_of_integerFront? {cs digits : List Char} (h : integerFront? cs = some digits) :
    isNumeral digits = true ∧ digits <+: cs := by
  unfold integerFront? at h
  simp only at h
  split at h
  · simp at h
  · next hne =>
    cases h
    exact ⟨by simp [isNumeral, hne], List.takeWhile_prefix _⟩

theorem spelling_of_symbolFront? {cs : List Char} {s : Symbol} (h : symbolFront? cs = some s) :
    s.spelling.toList <+: cs := by
  have hfront : s.spelling.toList.isPrefixOf cs = true :=
    List.find?_some (p := fun s : Symbol => s.spelling.toList.isPrefixOf cs) h
  exact List.isPrefixOf_iff_prefix.mp hfront

end Lexeme

namespace Front

open Lexeme

/-- What the scanner can make of the front of a text. -/
inductive Takes (c : Char) (cs : List Char) : Front → Prop
  | blank : c ≠ '\n' → Takes c cs .blank
  | newline : c = '\n' → Takes c cs .newline
  | comment {w} : w <+: c :: cs → w ≠ [] → '\n' ∉ w → Takes c cs (.comment w.length)
  | lexeme {l w} : w <+: c :: cs → l.Spelled w → Takes c cs (.lexeme l w.length)
  | overlong {w} : w <+: c :: cs → isNumeral w = true → digitLimit < w.length →
      Takes c cs (.overlong w.length)
  | illegal : c ≠ '\n' → Takes c cs .illegal

/-- **What the scanner takes from the front of a text spells what it makes of it.** -/
theorem takes_of (c : Char) (cs : List Char) : Takes c cs (Front.of c cs) := by
  -- the branches in the order in which they are tried
  unfold Front.of
  split
  · next hblank =>
    refine .blank ?_
    rintro rfl
    simp at hblank
  split
  · next hnewline => exact .newline hnewline
  next hnewline =>
  split
  · -- a comment ends before the line does
    next hslash =>
    refine .comment (List.takeWhile_prefix _) ?_ fun hmem => ?_
    · rw [Bool.and_eq_true, decide_eq_true_eq] at hslash
      obtain ⟨rfl, -⟩ := hslash
      simp
    · have hall := List.all_eq_true.mp List.all_takeWhile _ hmem
      simp at hall
  split
  · next w hw =>
    -- names: a word, a variable, an enumeration value
    obtain ⟨hword, hprefix⟩ := word_of_identFront? hw
    exact .lexeme hprefix (.word hword)
  split
  · next w hw =>
    obtain ⟨run, rfl, hrun, hne, hprefix⟩ := run_of_markedFront? hw
    exact .lexeme hprefix (.variable hrun hne)
  split
  · next w hw =>
    obtain ⟨run, rfl, hrun, hne, hprefix⟩ := run_of_markedFront? hw
    exact .lexeme hprefix (.enumValue hrun hne)
  split
  · next whole fraction hw =>
    -- numbers: a decimal, whose point is counted, too
    obtain ⟨hwhole, hfraction, hprefix⟩ := digits_of_decimalFront? hw
    have hlength : whole.length + 1 + fraction.length = (whole ++ '.' :: fraction).length := by
      simp only [List.length_append, List.length_cons]
      omega
    rw [hlength]
    exact .lexeme hprefix (.real hwhole hfraction)
  split
  · next digits hw =>
    -- an integer, unless it has too many digits
    obtain ⟨hdigits, hprefix⟩ := digits_of_integerFront? hw
    split
    · exact .lexeme hprefix (.integer hdigits)
    · next hlong => exact .overlong hprefix hdigits (Nat.lt_of_not_le hlong)
  split
  · next s hs =>
    -- a symbol, and if there is none, nothing
    rw [← String.length_toList]
    exact .lexeme (spelling_of_symbolFront? hs) (.symbol s)
  · exact .illegal hnewline

theorem of_identFront? {c : Char} {cs name : List Char} (h : identFront? (c :: cs) = some name) :
    Front.of c cs = .lexeme (ofName name) name.length := by
  have halpha : c.isAlpha = true := by
    cases hc : c.isAlpha with
    | true => rfl
    | false => simp [identFront?, hc] at h
  have hne : ∀ d, d.isAlpha = false → c ≠ d := by
    rintro d hd rfl
    simp [halpha] at hd
  simp [Front.of, hne ' ' (by decide), hne '\t' (by decide), hne '\n' (by decide),
    hne '/' (by decide), h]

/-! ### What is taken before a gap -/

/-- Whether a text is at its end or starts with a blank, a tab or a newline. -/
def opensGap : List Char → Bool
  | [] => true
  | c :: _ => c == ' ' || c == '\t' || c == '\n'

theorem head?_of_opensGap {rest : List Char} (h : opensGap rest = true) {c : Char}
    (hc : rest.head? = some c) : c = ' ' ∨ c = '\t' ∨ c = '\n' := by
  cases rest with
  | nil => cases hc
  | cons d rest =>
    cases hc
    simpa [opensGap, or_assoc] using h

section Gap

variable {rest : List Char} (hgap : opensGap rest = true)
include hgap

theorem isNameChar_of_opensGap {c : Char} (hc : rest.head? = some c) : isNameChar c = false := by
  rcases head?_of_opensGap hgap hc with rfl | rfl | rfl <;> decide

theorem isDigit_of_opensGap {c : Char} (hc : rest.head? = some c) : c.isDigit = false := by
  rcases head?_of_opensGap hgap hc with rfl | rfl | rfl <;> decide

theorem takeWhile_isDigit_append {digits : List Char} (h : digits.all Char.isDigit = true) :
    (digits ++ rest).takeWhile Char.isDigit = digits :=
  takeWhile_append_of_head? (List.all_eq_true.mp h) fun _ => isDigit_of_opensGap hgap

theorem identFront?_append {w : List Char} (h : isWord w = true) :
    identFront? (w ++ rest) = some w := by
  obtain ⟨c, run, prime, rfl, halpha, hrun, hprime⟩ := exists_of_isWord h
  rw [List.cons_append, identFront?, if_pos halpha]
  rcases hprime with rfl | rfl
  · have hname : nameRun (run ++ rest) = run :=
      nameRun_append hrun fun _ => isNameChar_of_opensGap hgap
    have hnoPrime : rest.head? ≠ some '\'' := by
      intro hhead
      rcases head?_of_opensGap hgap hhead with heq | heq | heq <;> exact absurd heq (by decide)
    simp [hname, hnoPrime]
  · have hname : nameRun (run ++ '\'' :: rest) = run := by
      refine nameRun_append hrun fun c hc => ?_
      cases hc
      decide
    simp [hname]

theorem markedFront?_append (mark : Char) {run : List Char} (hrun : isRun run = true)
    (hne : run ≠ []) : markedFront? mark (mark :: (run ++ rest)) = some (mark :: run) := by
  have hname : nameRun (run ++ rest) = run :=
    nameRun_append hrun fun _ => isNameChar_of_opensGap hgap
  simp [markedFront?, hname, hne]

theorem of_word {c : Char} {tail : List Char} (h : isWord (c :: tail) = true) :
    Front.of c (tail ++ rest) = .lexeme (ofName (c :: tail)) (c :: tail).length := by
  have hfront := identFront?_append hgap h
  rw [List.cons_append] at hfront
  exact of_identFront? hfront

theorem of_variable {run : List Char} (hrun : isRun run = true) (hne : run ≠ []) :
    Front.of '?' (run ++ rest) =
      .lexeme (.variable (String.ofList ('?' :: run))) ('?' :: run).length := by
  have hfront := markedFront?_append hgap '?' hrun hne
  have hident : identFront? ('?' :: (run ++ rest)) = none := by simp [identFront?]
  simp [Front.of, hident, hfront]

theorem of_enumValue {run : List Char} (hrun : isRun run = true) (hne : run ≠ []) :
    Front.of '@' (run ++ rest) =
      .lexeme (.enumValue (String.ofList ('@' :: run))) ('@' :: run).length := by
  have hfront := markedFront?_append hgap '@' hrun hne
  have hident : identFront? ('@' :: (run ++ rest)) = none := by simp [identFront?]
  have hmarked : markedFront? '?' ('@' :: (run ++ rest)) = none := by simp [markedFront?]
  simp [Front.of, hident, hmarked, hfront]

theorem decimalFront?_append {whole fraction : List Char} (hwhole : whole.all Char.isDigit = true)
    (hfraction : isNumeral fraction = true) :
    decimalFront? (whole ++ '.' :: fraction ++ rest) = some (whole, fraction) := by
  rw [isNumeral, Bool.and_eq_true] at hfraction
  have htake : (whole ++ '.' :: (fraction ++ rest)).takeWhile Char.isDigit = whole :=
    takeWhile_append_of_head? (List.all_eq_true.mp hwhole) fun c hc => by cases hc; decide
  have hdigits := takeWhile_isDigit_append hgap hfraction.2
  rw [List.append_assoc, List.cons_append, decimalFront?, htake]
  simp only [List.drop_left, hdigits]
  exact if_neg (by simpa using hfraction.1)

theorem decimalFront?_numeral {digits : List Char} (h : isNumeral digits = true) :
    decimalFront? (digits ++ rest) = none := by
  rw [isNumeral, Bool.and_eq_true] at h
  rw [decimalFront?, takeWhile_isDigit_append hgap h.2]
  simp only [List.drop_left]
  split
  · rcases head?_of_opensGap hgap rfl with heq | heq | heq <;> exact absurd heq (by decide)
  · rfl

theorem integerFront?_append {digits : List Char} (h : isNumeral digits = true) :
    integerFront? (digits ++ rest) = some digits := by
  rw [isNumeral, Bool.and_eq_true] at h
  rw [integerFront?, takeWhile_isDigit_append hgap h.2]
  exact if_neg (by simpa using h.1)

end Gap

/-- What is made of characters that spell a lexeme. -/
def taking (l : Lexeme) (w : List Char) : Front :=
  if isOverlong w then .overlong w.length else .lexeme l w.length

/-- What starts with neither a blank, a newline, a slash nor a name. -/
structure StartsNoName (c : Char) (cs : List Char) : Prop where
  blank : c ≠ ' '
  tab : c ≠ '\t'
  newline : c ≠ '\n'
  slash : c ≠ '/'
  ident : identFront? (c :: cs) = none
  «variable» : markedFront? '?' (c :: cs) = none
  enumValue : markedFront? '@' (c :: cs) = none

theorem startsNoName_of_isDigit {c : Char} (hc : c.isDigit = true ∨ c = '.') (cs : List Char) :
    StartsNoName c cs := by
  have halpha : c.isAlpha = false := by
    rcases hc with hdigit | rfl
    · exact isAlpha_of_isDigit hdigit
    · decide
  have hne : ∀ d, d.isDigit = false → d ≠ '.' → c ≠ d := by
    rintro d hd hdot rfl
    simp [hd, hdot] at hc
  constructor
  · exact hne _ (by decide) (by decide)
  · exact hne _ (by decide) (by decide)
  · exact hne _ (by decide) (by decide)
  · exact hne _ (by decide) (by decide)
  · simp [identFront?, halpha]
  · simp [markedFront?, hne '?' (by decide) (by decide)]
  · simp [markedFront?, hne '@' (by decide) (by decide)]

namespace StartsNoName

variable {c : Char} {cs : List Char} (h : StartsNoName c cs)
include h

theorem of_decimalFront? {whole fraction : List Char}
    (hfront : decimalFront? (c :: cs) = some (whole, fraction)) :
    Front.of c cs =
      .lexeme (.real (.ofDecimal false (digitsValue (whole ++ fraction)) (-fraction.length)))
        (whole.length + 1 + fraction.length) := by
  simp [Front.of, h.blank, h.tab, h.newline, h.slash, h.ident, h.variable, h.enumValue, hfront]

theorem of_integerFront? {digits : List Char} (hdecimal : decimalFront? (c :: cs) = none)
    (hfront : integerFront? (c :: cs) = some digits) :
    Front.of c cs =
      if digits.length ≤ digitLimit then .lexeme (.integer (digitsValue digits)) digits.length
      else .overlong digits.length := by
  simp [Front.of, h.blank, h.tab, h.newline, h.slash, h.ident, h.variable, h.enumValue, hdecimal,
    hfront]

end StartsNoName

theorem of_real {c : Char} {tail whole fraction rest : List Char} (hgap : opensGap rest = true)
    (hwhole : whole.all Char.isDigit = true) (hfraction : isNumeral fraction = true)
    (h : whole ++ '.' :: fraction = c :: tail) :
    Front.of c (tail ++ rest) =
      .lexeme (.real (.ofDecimal false (digitsValue (whole ++ fraction)) (-fraction.length)))
        (c :: tail).length := by
  have hfront := decimalFront?_append hgap hwhole hfraction
  rw [h, List.cons_append] at hfront
  -- a decimal starts with a digit or with the point
  have hc : c.isDigit = true ∨ c = '.' := by
    cases whole with
    | nil =>
      cases h
      exact .inr rfl
    | cons d whole =>
      cases h
      exact .inl (List.all_eq_true.mp hwhole _ (by simp))
  have hlength : (c :: tail).length = whole.length + 1 + fraction.length := by
    rw [← h, List.length_append, List.length_cons]
    omega
  rw [(startsNoName_of_isDigit hc _).of_decimalFront? hfront, hlength]

theorem of_integer {c : Char} {tail rest : List Char} (hgap : opensGap rest = true)
    (h : isNumeral (c :: tail) = true) :
    Front.of c (tail ++ rest) = taking (.integer (digitsValue (c :: tail))) (c :: tail) := by
  have hdecimal := decimalFront?_numeral hgap h
  have hinteger := integerFront?_append hgap h
  rw [List.cons_append] at hdecimal hinteger
  have hc : c.isDigit = true ∨ c = '.' := .inl (isDigit_of_isNumeral h (by simp))
  rw [(startsNoName_of_isDigit hc _).of_integerFront? hdecimal hinteger, taking, isOverlong, h]
  by_cases hshort : (c :: tail).length ≤ digitLimit
  · have hnotLong : ¬digitLimit < (c :: tail).length := Nat.not_lt_of_le hshort
    rw [if_pos hshort, decide_eq_false hnotLong]
    rfl
  · have hlong : digitLimit < (c :: tail).length := Nat.lt_of_not_le hshort
    rw [if_neg hshort, decide_eq_true hlong]
    rfl

theorem of_symbol {s : Symbol} {c : Char} {tail rest : List Char}
    (h : s.spelling.toList = c :: tail) (hgap : opensGap rest = true) :
    Front.of c (tail ++ rest) = .lexeme (.symbol s) s.spelling.length := by
  cases rest with
  | nil =>
    cases s <;> cases h <;> rfl
  | cons d rest =>
    rcases head?_of_opensGap hgap rfl with rfl | rfl | rfl
    · cases s <;> cases h <;> rfl
    · cases s <;> cases h <;> rfl
    · cases s <;> cases h <;> rfl

/-- **A lexeme is taken whole where a gap follows it**, unless it is an integer with too
    many digits. -/
theorem of_spelled {l : Lexeme} {c : Char} {tail rest : List Char} (h : l.Spelled (c :: tail))
    (hgap : opensGap rest = true) : Front.of c (tail ++ rest) = taking l (c :: tail) := by
  generalize hw : c :: tail = w at h ⊢
  -- only integers can be too long
  have hover := h.isOverlong_eq_false
  cases h with
  | word hword =>
    subst hw
    rw [taking, hover (ofName_ne_integer _)]
    exact of_word hgap hword
  | «variable» hrun hne =>
    cases hw
    rw [taking, hover (by simp)]
    exact of_variable hgap hrun hne
  | enumValue hrun hne =>
    cases hw
    rw [taking, hover (by simp)]
    exact of_enumValue hgap hrun hne
  | real hwhole hfraction =>
    rw [taking, hover (by simp), ← hw]
    exact of_real hgap hwhole hfraction hw.symm
  | integer hdigits =>
    subst hw
    exact of_integer hgap hdigits
  | symbol s =>
    rw [taking, hover (by simp), String.length_toList]
    exact of_symbol hw.symm hgap

end Front

end Rddl
