/-
  Rddl/Proofs/Scan/Longest.lean
  =============================
  **The longest match.**

  A match is the longest at the front of a text if no rule matches more, and no other rule as
  much (`Rule.IsLongest`).  What the scanner finds at the front of a text is the longest
  match there, and it finds nothing only where no rule matches (`Front.chosen_of`).
-/
import Rddl.Proofs.Scan.Cuts
import Rddl.Proofs.Scan.Rules

namespace Rddl

theorem Symbol.mem_all (s : Symbol) : s ∈ Symbol.all := by
  cases s <;> decide

/-! ### Fronts reach as far as matches -/

namespace Lexeme

variable {cs v run : List Char}

theorem isPrefix_takeWhile {p : Char → Bool} (hv : ∀ c ∈ v, p c = true) (h : v <+: cs) :
    v <+: cs.takeWhile p := by
  obtain ⟨behind, rfl⟩ := h
  rw [List.takeWhile_append_of_pos hv]
  exact List.prefix_append _ _

theorem isPrefix_nameRun (hrun : isRun run = true) (h : run <+: cs) : run <+: nameRun cs := by
  obtain ⟨behind, hbehind⟩ := isPrefix_takeWhile (fun c hc => isNameChar_of_isRun hrun hc) h
  rw [nameRun, ← hbehind, List.reverse_append, List.dropWhile_append,
    dropWhile_reverse_of_isRun hrun]
  split
  · rw [List.reverse_reverse]
  · rw [List.reverse_append, List.reverse_reverse]
    exact List.prefix_append _ _

theorem exists_identFront? (hv : isWord v = true) (h : v <+: cs) :
    ∃ name, identFront? cs = some name ∧ v.length ≤ name.length := by
  obtain ⟨c, run, prime, rfl, hc, hrun, hprime⟩ := exists_of_isWord hv
  obtain ⟨behind, rfl⟩ := h
  rw [List.cons_append, List.append_assoc, identFront?, if_pos hc]
  rcases hprime with rfl | rfl
  · have hle := (isPrefix_nameRun hrun (List.prefix_append run ([] ++ behind))).length_le
    simp only
    split
    · exact ⟨_, rfl, by simpa using Nat.le_succ_of_le hle⟩
    · exact ⟨_, rfl, by simpa using hle⟩
  · have hname : nameRun (run ++ (['\''] ++ behind)) = run :=
      nameRun_append hrun fun c hc => by cases hc; decide
    simp only [hname, List.drop_left]
    exact ⟨_, rfl, by simp⟩

theorem exists_markedFront? {mark : Char} (hrun : isRun run = true) (hne : run ≠ [])
    (h : mark :: run <+: cs) :
    ∃ name, markedFront? mark cs = some name ∧ (mark :: run).length ≤ name.length := by
  obtain ⟨behind, rfl⟩ := h
  have hpre := isPrefix_nameRun hrun (List.prefix_append run behind)
  have hsome : nameRun (run ++ behind) ≠ [] := fun hnil => hne (by simpa [hnil] using hpre)
  refine ⟨mark :: nameRun (run ++ behind), ?_, Nat.succ_le_succ hpre.length_le⟩
  simp [markedFront?, hsome]

theorem isPrefix_digits (hv : isNumeral v = true) (h : v <+: cs) :
    v <+: cs.takeWhile Char.isDigit ∧ cs.takeWhile Char.isDigit ≠ [] := by
  have hpre := isPrefix_takeWhile (fun c => isDigit_of_isNumeral hv) h
  refine ⟨hpre, fun hnil => ?_⟩
  rw [hnil, List.prefix_nil] at hpre
  simp [hpre, isNumeral] at hv

theorem exists_decimalFront? {whole fraction : List Char} (hwhole : whole.all Char.isDigit = true)
    (hfraction : isNumeral fraction = true) (h : whole ++ '.' :: fraction <+: cs) :
    ∃ digits, decimalFront? cs = some (whole, digits) ∧ fraction.length ≤ digits.length := by
  obtain ⟨behind, rfl⟩ := h
  have htake : (whole ++ '.' :: (fraction ++ behind)).takeWhile Char.isDigit = whole :=
    takeWhile_append_of_head? (List.all_eq_true.mp hwhole) fun c hc => by cases hc; decide
  obtain ⟨hpre, hsome⟩ := isPrefix_digits hfraction (List.prefix_append fraction behind)
  refine ⟨(fraction ++ behind).takeWhile Char.isDigit, ?_, hpre.length_le⟩
  rw [List.append_assoc, List.cons_append, decimalFront?, htake]
  simp only [List.drop_left]
  exact if_neg (by simpa using hsome)

theorem exists_integerFront? (hv : isNumeral v = true) (h : v <+: cs) :
    ∃ digits, integerFront? cs = some digits ∧ v.length ≤ digits.length := by
  obtain ⟨hpre, hsome⟩ := isPrefix_digits hv h
  exact ⟨_, if_neg (by simpa using hsome), hpre.length_le⟩

/-- Symbols are tried from the longest spelling to the shortest. -/
theorem pairwise_symbols : Symbol.all.Pairwise fun s s' =>
    s'.spelling.toList.length ≤ s.spelling.toList.length ∧
      s.spelling.toList ≠ s'.spelling.toList := by
  decide

theorem exists_longer_symbolFront? {s : Symbol} (h : s.spelling.toList <+: cs) :
    ∃ s', symbolFront? cs = some s' ∧
      (s = s' ∨ s.spelling.toList.length < s'.spelling.toList.length) := by
  have hmem := s.mem_all
  cases hfront : symbolFront? cs with
  | none =>
    have hnot := List.find?_eq_none.mp hfront s hmem
    exact absurd (List.isPrefixOf_iff_prefix.mpr h) hnot
  | some s' =>
    obtain ⟨hs', before, behind, hall, hbefore⟩ := List.find?_eq_some_iff_append.mp hfront
    refine ⟨s', rfl, ?_⟩
    have hpairwise := pairwise_symbols
    rw [hall] at hmem hpairwise
    rcases List.mem_append.mp hmem with hs | hs
    · -- tried before and refused
      have hnot := hbefore s hs
      rw [List.isPrefixOf_iff_prefix.mpr h] at hnot
      cases hnot
    · rcases List.mem_cons.mp hs with rfl | hs
      · exact .inl rfl
      · -- tried later, so not longer; of the same length they would be the same
        obtain ⟨hle, hne⟩ := (List.pairwise_cons.mp (List.pairwise_append.mp hpairwise).2.1).1 s hs
        refine .inr (lt_of_le_of_ne hle fun heq => hne ?_)
        have hspre := List.isPrefixOf_iff_prefix.mp hs'
        exact (List.prefix_of_prefix_length_le hspre h heq.ge).eq_of_length heq.symm

end Lexeme

namespace Rule

open Lexeme Pattern

/-! ### The rules that compete at a character -/

theorem mem_order (r : Rule) : r ∈ order := by
  cases r with
  | symbol s => exact List.mem_append_right _ (List.mem_map_of_mem s.mem_all)
  | _ => decide

def starting (c : Char) : List Rule := order.filter (·.starts c)

variable {r : Rule} {c : Char} {cs w : List Char}

theorem mem_starting : r ∈ starting c ↔ r.starts c = true := by
  simp [starting, mem_order]

theorem starting_newline : starting '\n' = [newline] := by decide

theorem starting_slash : starting '/' = [comment, symbol .slash] := by decide

theorem starting_question : starting '?' = [«variable», symbol .question] := by decide

theorem starting_at : starting '@' = [enumValue] := by decide

theorem starting_dot : starting '.' = [real, symbol .dot] := by decide

/-- Where a letter or a digit stands, only names and numbers can match. -/
theorem starts_isAlphanum (hc : c.isAlphanum = true) (h : r.starts c = true) :
    r = ident ∧ c.isAlpha = true ∨ (r = real ∨ r = integer) ∧ c.isDigit = true := by
  have hmark : ∀ {d : Char}, d.isAlphanum = false → c ≠ d := by
    rintro d hd rfl
    simp [hd] at hc
  cases r with
  | ident => exact .inl ⟨rfl, h⟩
  | real =>
    rcases Bool.or_eq_true_iff.mp h with h | h
    · exact .inr ⟨.inl rfl, h⟩
    · exact absurd (of_decide_eq_true h) (hmark (by decide))
  | integer => exact .inr ⟨.inr rfl, h⟩
  | symbol s =>
    have hhead : s.spelling.toList.head? = some c := of_decide_eq_true h
    cases s <;> (cases hhead; exact absurd hc (by decide))
  | _ => exact absurd (of_decide_eq_true h) (hmark (by decide))

theorem eq_of_starts_letter (hc : c.isAlpha = true) (h : r.starts c = true) : r = ident := by
  rcases starts_isAlphanum (by simp [Char.isAlphanum, hc]) h with ⟨hr, -⟩ | ⟨-, hdigit⟩
  · exact hr
  · simp [isAlpha_of_isDigit hdigit] at hc

theorem eq_of_starts_digit (hc : c.isDigit = true) (h : r.starts c = true) :
    r = real ∨ r = integer := by
  rcases starts_isAlphanum (by simp [Char.isAlphanum, hc]) h with ⟨-, halpha⟩ | ⟨hr, -⟩
  · simp [isAlpha_of_isDigit hc] at halpha
  · exact hr

/-! ### Longest matches -/

/-- The characters are what the rule matches at the front of a text, and no rule matches more or
    as much in another way. -/
structure IsLongest (r : Rule) (w cs : List Char) : Prop where
  mem : w ∈ r.language
  isPrefix : w <+: cs
  longest : ∀ r' v, v ∈ language r' → v <+: cs → v.length < w.length ∨ (r' = r ∧ v = w)

/-- Only the rules that can match at the first character compete. -/
theorem isLongest_of_starting (hmem : w ∈ r.language) (hpre : w <+: c :: cs)
    (hown : ∀ v ∈ r.language, v <+: c :: cs → v.length ≤ w.length)
    (hothers : ∀ r' ∈ starting c, r' ≠ r → ∀ v ∈ language r', v <+: c :: cs → v.length < w.length) :
    r.IsLongest w (c :: cs) := by
  refine ⟨hmem, hpre, fun r' v hv hvpre => ?_⟩
  by_cases hr : r' = r
  · subst hr
    rcases Nat.lt_or_eq_of_le (hown v hv hvpre) with hlt | heq
    · exact .inl hlt
    · exact .inr ⟨rfl, (List.prefix_of_prefix_length_le hvpre hpre heq.le).eq_of_length heq⟩
  · exact .inl (hothers r' (mem_starting.mpr (starts_of_isPrefix hv hvpre)) hr v hv hvpre)

theorem isLongest_ident (h : identFront? (c :: cs) = some w) : ident.IsLongest w (c :: cs) := by
  obtain ⟨hw, hpre⟩ := word_of_identFront? h
  refine isLongest_of_starting (mem_language_ident.mpr hw) hpre ?_ ?_
  · intro v hv hvpre
    obtain ⟨name, hname, hle⟩ := exists_identFront? (mem_language_ident.mp hv) hvpre
    cases h.symm.trans hname
    exact hle
  · intro r' hr' hne
    have hc := starts_of_isPrefix (mem_language_ident.mpr hw) hpre
    exact absurd (eq_of_starts_letter hc (mem_starting.mp hr')) hne

/-- No match is longer than what stands at the front behind a mark. -/
theorem length_le_of_markedFront? {mark : Char} (h : markedFront? mark (c :: cs) = some w)
    {v : List Char} (hv : v ∈ (seq (char mark) nameTail).language) (hpre : v <+: c :: cs) :
    v.length ≤ w.length := by
  obtain ⟨run, rfl, hrun, hne⟩ := mem_language_marked.mp hv
  obtain ⟨name, hname, hle⟩ := exists_markedFront? hrun hne hpre
  cases h.symm.trans hname
  exact hle

theorem length_of_mem_symbol {s : Symbol} (hw : w ∈ (symbol s).language) :
    w.length = s.spelling.toList.length := by
  rw [mem_language_symbol.mp hw]

theorem isLongest_variable (h : markedFront? '?' (c :: cs) = some w) :
    «variable».IsLongest w (c :: cs) := by
  obtain ⟨run, rfl, hrun, hne, hpre⟩ := run_of_markedFront? h
  obtain ⟨rfl, -⟩ := List.cons_prefix_cons.mp hpre
  refine isLongest_of_starting (mem_language_marked.mpr ⟨run, rfl, hrun, hne⟩) hpre
    (fun v hv => length_le_of_markedFront? h hv) fun r' hr' hother v hv _ => ?_
  rw [starting_question] at hr'
  obtain rfl : r' = symbol .question := by simpa [hother] using hr'
  rw [length_of_mem_symbol hv]
  exact Nat.succ_lt_succ (List.length_pos_of_ne_nil hne)

theorem isLongest_enumValue (h : markedFront? '@' (c :: cs) = some w) :
    enumValue.IsLongest w (c :: cs) := by
  obtain ⟨run, rfl, hrun, hne, hpre⟩ := run_of_markedFront? h
  obtain ⟨rfl, -⟩ := List.cons_prefix_cons.mp hpre
  refine isLongest_of_starting (mem_language_marked.mpr ⟨run, rfl, hrun, hne⟩) hpre
    (fun v hv => length_le_of_markedFront? h hv) fun r' hr' hother => ?_
  rw [starting_at, List.mem_singleton] at hr'
  exact absurd hr' hother

theorem isLongest_real {whole fraction : List Char}
    (h : decimalFront? (c :: cs) = some (whole, fraction)) :
    real.IsLongest (whole ++ '.' :: fraction) (c :: cs) := by
  obtain ⟨hwhole, hfraction, hpre⟩ := digits_of_decimalFront? h
  refine isLongest_of_starting (mem_language_real.mpr ⟨whole, fraction, rfl, hwhole, hfraction⟩)
    hpre ?_ fun r' hr' hother v hv hvpre => ?_
  · intro v hv hvpre
    obtain ⟨whole', fraction', rfl, hwhole', hfraction'⟩ := mem_language_real.mp hv
    obtain ⟨digits, hdigits, hle⟩ := exists_decimalFront? hwhole' hfraction' hvpre
    cases h.symm.trans hdigits
    simpa using hle
  · cases whole with
    | nil =>
      obtain ⟨rfl, -⟩ := List.cons_prefix_cons.mp hpre
      rw [starting_dot] at hr'
      obtain rfl : r' = symbol .dot := by simpa [hother] using hr'
      have hne : fraction ≠ [] := by
        rintro rfl
        cases hfraction
      rw [length_of_mem_symbol hv]
      exact Nat.succ_lt_succ (List.length_pos_of_ne_nil hne)
    | cons d whole =>
      obtain ⟨rfl, -⟩ := List.cons_prefix_cons.mp hpre
      have hd := List.all_eq_true.mp hwhole d List.mem_cons_self
      obtain rfl := (eq_of_starts_digit hd (mem_starting.mp hr')).resolve_left hother
      -- an integer of that length would reach over the point
      by_contra! hle
      have hpoint : '.' ∈ v :=
        (List.prefix_of_prefix_length_le hpre hvpre hle).subset (by simp)
      cases isDigit_of_isNumeral (mem_language_integer.mp hv) hpoint

theorem isLongest_integer (hreal : decimalFront? (c :: cs) = none)
    (h : integerFront? (c :: cs) = some w) : integer.IsLongest w (c :: cs) := by
  obtain ⟨hw, hpre⟩ := digits_of_integerFront? h
  refine isLongest_of_starting (mem_language_integer.mpr hw) hpre ?_
    fun r' hr' hother v hv hvpre => ?_
  · intro v hv hvpre
    obtain ⟨digits, hdigits, hle⟩ := exists_integerFront? (mem_language_integer.mp hv) hvpre
    cases h.symm.trans hdigits
    exact hle
  · have hc := starts_of_isPrefix (mem_language_integer.mpr hw) hpre
    obtain rfl := (eq_of_starts_digit hc (mem_starting.mp hr')).resolve_right hother
    obtain ⟨whole, fraction, rfl, hwhole, hfraction⟩ := mem_language_real.mp hv
    obtain ⟨digits, hdigits, -⟩ := exists_decimalFront? hwhole hfraction hvpre
    cases hreal.symm.trans hdigits

/-- A symbol is the longest match unless a comment, a variable or a decimal starts with it. -/
theorem isLongest_symbol {s : Symbol} (hcomment : ¬(c = '/' ∧ cs.head? = some '/'))
    (hvariable : markedFront? '?' (c :: cs) = none) (hreal : decimalFront? (c :: cs) = none)
    (h : symbolFront? (c :: cs) = some s) :
    (symbol s).IsLongest s.spelling.toList (c :: cs) := by
  have hpre := spelling_of_symbolFront? h
  have hstarts := starts_of_isPrefix (mem_language_symbol.mpr rfl) hpre
  refine isLongest_of_starting (mem_language_symbol.mpr rfl) hpre
    (fun v hv _ => (length_of_mem_symbol hv).le) fun r' hr' hother v hv hvpre => ?_
  have hmem := mem_starting.mpr hstarts
  have hc := mem_starting.mp hr'
  -- of the other rules some cannot start here and some were tried before; another symbol is
  -- shorter
  cases r' with
  | newline =>
    obtain rfl : c = '\n' := of_decide_eq_true hc
    simp [starting_newline] at hmem
  | comment =>
    obtain ⟨remark, rfl, -, -⟩ := mem_language_comment.mp hv
    obtain ⟨rfl, hslash⟩ := List.cons_prefix_cons.mp hvpre
    obtain ⟨behind, rfl⟩ := hslash
    exact absurd ⟨rfl, rfl⟩ hcomment
  | ident => cases eq_of_starts_letter hc hstarts
  | «variable» =>
    obtain ⟨run, rfl, hrun, hne⟩ := mem_language_marked.mp hv
    obtain ⟨name, hname, -⟩ := exists_markedFront? hrun hne hvpre
    cases hvariable.symm.trans hname
  | enumValue =>
    obtain rfl : c = '@' := of_decide_eq_true hc
    simp [starting_at] at hmem
  | real =>
    obtain ⟨whole, fraction, rfl, hwhole, hfraction⟩ := mem_language_real.mp hv
    obtain ⟨digits, hdigits, -⟩ := exists_decimalFront? hwhole hfraction hvpre
    cases hreal.symm.trans hdigits
  | integer => rcases eq_of_starts_digit hc hstarts with hs | hs <;> cases hs
  | symbol s' =>
    obtain rfl := mem_language_symbol.mp hv
    obtain ⟨s'', hs'', hlonger⟩ := exists_longer_symbolFront? hvpre
    cases h.symm.trans hs''
    refine hlonger.resolve_left fun heq => hother (by rw [heq])

theorem isLongest_newline (cs : List Char) :
    newline.IsLongest (('\n' :: cs).takeWhile (· = '\n')) ('\n' :: cs) := by
  refine isLongest_of_starting (mem_language_newline.mpr ⟨by simp, fun c hc => ?_⟩)
    (List.takeWhile_prefix _) (fun v hv hpre => ?_) fun r' hr' hother => ?_
  · simpa using List.all_eq_true.mp List.all_takeWhile c hc
  · have hall := (mem_language_newline.mp hv).2
    exact (isPrefix_takeWhile (fun c hc => decide_eq_true (hall c hc)) hpre).length_le
  · rw [starting_newline, List.mem_singleton] at hr'
    exact absurd hr' hother

theorem isLongest_comment (cs : List Char) :
    comment.IsLongest (('/' :: '/' :: cs).takeWhile fun x => x ≠ '\r' && x ≠ '\n')
      ('/' :: '/' :: cs) := by
  have htake : ('/' :: '/' :: cs).takeWhile (fun x => x ≠ '\r' && x ≠ '\n') =
      '/' :: '/' :: cs.takeWhile fun x => x ≠ '\r' && x ≠ '\n' := by simp
  refine isLongest_of_starting (mem_language_comment.mpr ⟨_, htake, fun hmem => ?_, fun hmem => ?_⟩)
    (List.takeWhile_prefix _) (fun v hv hpre => ?_) fun r' hr' hother v hv _ => ?_
  · simpa using List.all_eq_true.mp List.all_takeWhile _ hmem
  · simpa using List.all_eq_true.mp List.all_takeWhile _ hmem
  · obtain ⟨remark, rfl, hreturn, hnewline⟩ := mem_language_comment.mp hv
    refine (isPrefix_takeWhile (fun c hc => ?_) hpre).length_le
    have hr : c ≠ '\r' := fun h => hreturn (by simpa [h] using hc)
    have hn : c ≠ '\n' := fun h => hnewline (by simpa [h] using hc)
    simp [hr, hn]
  · rw [starting_slash] at hr'
    obtain rfl : r' = symbol .slash := by simpa [hother] using hr'
    rw [length_of_mem_symbol hv, htake]
    exact Nat.succ_lt_succ (Nat.succ_pos _)

end Rule

/-! ### What the scanner finds -/

namespace Front

open Lexeme

/-- What the rules choose at the front of a text. -/
inductive Chosen (c : Char) (cs : List Char) : Front → Prop
  | blank : c = ' ' ∨ c = '\t' → Chosen c cs .blank
  | newline {w} : Rule.newline.IsLongest w (c :: cs) → Chosen c cs .newline
  | comment {w} : Rule.comment.IsLongest w (c :: cs) → Chosen c cs (.comment w.length)
  | lexeme {l w} : l.rule.IsLongest w (c :: cs) → l.Spelled w → isOverlong w = false →
      Chosen c cs (.lexeme l w.length)
  | overlong {w} : Rule.integer.IsLongest w (c :: cs) → digitLimit < w.length →
      Chosen c cs (.overlong w.length)
  | illegal : c ≠ ' ' → c ≠ '\t' → (∀ r : Rule, r.Misses (c :: cs)) → Chosen c cs .illegal

theorem misses_of_illegal {c : Char} {cs : List Char} (h : Front.of c cs = .illegal) (r : Rule) :
    r.Misses (c :: cs) := by
  obtain ⟨hnothing, hat⟩ := startsNothing_of_illegal h
  have hname := hnothing.name
  rw [Char.isAlphanum, Bool.or_eq_false_iff] at hname
  -- no symbol starts with the character
  have hsymbol : ∀ s : Symbol, ¬(Rule.symbol s).starts c = true := fun s hs =>
    hnothing.symbol s s.mem_all (of_decide_eq_true hs)
  intro v hv hpre
  have hstarts := Rule.starts_of_isPrefix hv hpre
  cases r with
  | newline => exact hnothing.blank.2.2 (of_decide_eq_true hstarts)
  | comment => exact hsymbol .slash (by rw [of_decide_eq_true hstarts]; rfl)
  | ident => exact Bool.eq_false_iff.mp hname.1 hstarts
  | «variable» => exact hsymbol .question (by rw [of_decide_eq_true hstarts]; rfl)
  -- an `@` is illegal only if no name follows it
  | enumValue =>
    obtain ⟨run, rfl, hrun, hne⟩ := Rule.mem_language_marked.mp hv
    obtain ⟨rfl, hbehind⟩ := List.cons_prefix_cons.mp hpre
    have hnil := isPrefix_nameRun hrun hbehind
    rw [hat rfl] at hnil
    exact hne (List.prefix_nil.mp hnil)
  | real =>
    rcases Bool.or_eq_true_iff.mp hstarts with hdigit | hdot
    · exact Bool.eq_false_iff.mp hname.2 hdigit
    · exact hsymbol .dot (by rw [of_decide_eq_true hdot]; rfl)
  | integer => exact Bool.eq_false_iff.mp hname.2 hstarts
  | symbol s => exact hsymbol s hstarts

/-- **What the scanner finds at the front of a text is what the rules choose.** -/
theorem chosen_of (c : Char) (cs : List Char) : Chosen c cs (Front.of c cs) := by
  generalize hfront : Front.of c cs = front
  have hof := hfront
  -- the branches in turn; what the earlier ones have refused is kept for the later ones
  unfold Front.of at hfront
  split at hfront
  · next hblank =>
    cases hfront
    exact .blank (by simpa using hblank)
  split at hfront
  · next hnewline =>
    cases hfront
    subst hnewline
    exact .newline (Rule.isLongest_newline cs)
  split at hfront
  · next hslash =>
    cases hfront
    rw [Bool.and_eq_true, decide_eq_true_eq, decide_eq_true_eq] at hslash
    obtain ⟨rfl, hhead⟩ := hslash
    obtain ⟨rest, rfl⟩ := List.head?_eq_some_iff.mp hhead
    exact .comment (Rule.isLongest_comment rest)
  next hcomment =>
  split at hfront
  · next w hw =>
    cases hfront
    -- a keyword or an identifier
    obtain ⟨hword, -⟩ := word_of_identFront? hw
    have hspelled := Spelled.word hword
    refine .lexeme ?_ hspelled (hspelled.isOverlong_eq_false (ofName_ne_integer w))
    rw [rule_ofName]
    exact Rule.isLongest_ident hw
  split at hfront
  · next w hw =>
    cases hfront
    obtain ⟨run, rfl, hrun, hne, -⟩ := run_of_markedFront? hw
    have hspelled := Spelled.variable hrun hne
    exact .lexeme (Rule.isLongest_variable hw) hspelled (hspelled.isOverlong_eq_false (by simp))
  next hvariable =>
  have hvariable := Option.eq_none_iff_forall_ne_some.mpr hvariable
  split at hfront
  · next w hw =>
    cases hfront
    obtain ⟨run, rfl, hrun, hne, -⟩ := run_of_markedFront? hw
    have hspelled := Spelled.enumValue hrun hne
    exact .lexeme (Rule.isLongest_enumValue hw) hspelled (hspelled.isOverlong_eq_false (by simp))
  split at hfront
  · next whole fraction hw =>
    cases hfront
    -- numbers: a decimal goes before the integer that it starts with
    obtain ⟨hwhole, hfraction, -⟩ := digits_of_decimalFront? hw
    have hspelled := Spelled.real hwhole hfraction
    have hlength : whole.length + 1 + fraction.length = (whole ++ '.' :: fraction).length := by
      simp only [List.length_append, List.length_cons]
      omega
    rw [hlength]
    exact .lexeme (Rule.isLongest_real hw) hspelled (hspelled.isOverlong_eq_false (by simp))
  next hreal =>
  have hreal : decimalFront? (c :: cs) = none :=
    Option.eq_none_iff_forall_ne_some.mpr fun d => hreal d.1 d.2
  split at hfront
  · next digits hw =>
    obtain ⟨hdigits, -⟩ := digits_of_integerFront? hw
    have hlongest := Rule.isLongest_integer hreal hw
    split at hfront
    · next hle =>
      cases hfront
      exact .lexeme hlongest (.integer hdigits) (by simpa [isOverlong] using fun _ => hle)
    · next hlong =>
      cases hfront
      exact .overlong hlongest (Nat.lt_of_not_le hlong)
  split at hfront
  · next s hs =>
    cases hfront
    rw [← String.length_toList]
    -- symbols, with all that starts like one refused before
    refine .lexeme (Rule.isLongest_symbol ?_ hvariable hreal hs) (.symbol s)
      ((Spelled.symbol s).isOverlong_eq_false (by simp))
    simpa using hcomment
  · cases hfront
    obtain ⟨hblank, htab, -⟩ := (startsNothing_of_illegal hof).1.blank
    exact .illegal hblank htab (misses_of_illegal hof)

end Front

end Rddl
