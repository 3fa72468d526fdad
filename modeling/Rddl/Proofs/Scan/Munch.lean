/-
  Rddl/Proofs/Scan/Munch.lean
  ===========================
  **Scanning by rules.**

  `Rule.munch` scans a text with any way to choose a rule and the length of its match.  It
  agrees with the scanner wherever the longest match is chosen (`Rule.munch_eq_walk`).  The
  longest match is found whatever the order of the rules is, and so the order does not
  matter.  If the first match is taken, as in `Rule.order`, then a rule must not hide
  longer matches of the rules behind it (`Scan.maximal_munch`).
-/
import Mathlib.Data.List.MinMax
import Rddl.Proofs.Scan.Layout
import Rddl.Proofs.Scan.Longest
import Rddl.Proofs.Scan.Pieces

namespace Rddl

open Lexeme

namespace Rule

/-! ### Choosing a match -/

/-- The rule of the first match, and its length.  The rules are tried in order, and the matches
    of a rule in the order in which its pattern gives them. -/
def firstMatch (order : List Rule) (cs : List Char) : Option (Rule × Nat) :=
  order.findSome? fun r => (r.pattern.tries cs).head?.map (r, ·)

def longestMatch (order : List Rule) (cs : List Char) : Option (Rule × Nat) :=
  (order.flatMap fun r => (r.pattern.tries cs).map (r, ·)).argmax Prod.snd

/-- A match of the first rule can be a part of a longer match of the second rule. -/
def Hides (r r' : Rule) : Prop := ∃ w ∈ r.language, ∃ v ∈ r'.language, w <+: v ∧ w ≠ v

/-- No rule hides a match of a rule behind it. -/
def Unhidden (order : List Rule) : Prop := order.Pairwise fun r r' => ¬r.Hides r'

/-- A way to choose a match that finds the longest one, if there is a match at all. -/
structure Chooses (choose : List Char → Option (Rule × Nat)) : Prop where
  longest : ∀ {r : Rule} {w cs : List Char}, r.IsLongest w cs → choose cs = some (r, w.length)
  misses : ∀ {cs : List Char}, (∀ r : Rule, r.Misses cs) → choose cs = none

variable {order : List Rule} {r : Rule} {w cs : List Char}

theorem chooses_longestMatch (hall : ∀ r, r ∈ order) : Chooses (longestMatch order) where
  longest {r w cs} h := by
    -- every match of any rule is shorter than this one, or is this one
    have hcompare : ∀ m ∈ order.flatMap fun r => (r.pattern.tries cs).map (r, ·),
        m.2 < w.length ∨ m = (r, w.length) := by
      intro m hm
      obtain ⟨r', -, hm⟩ := List.mem_flatMap.mp hm
      obtain ⟨n, hn, rfl⟩ := List.mem_map.mp hm
      obtain ⟨v, hv, hpre, rfl⟩ := (Pattern.finds_tries r'.pattern cs n).mp hn
      rcases h.longest r' v hv hpre with hlt | ⟨rfl, rfl⟩
      · exact .inl hlt
      · exact .inr rfl
    refine List.argmax_eq_some_iff.mpr ⟨?_, fun m hm => ?_, fun m hm hle => ?_⟩
    · have htries : w.length ∈ r.pattern.tries cs :=
        (Pattern.finds_tries r.pattern cs _).mpr ⟨w, h.mem, h.isPrefix, rfl⟩
      exact List.mem_flatMap.mpr ⟨r, hall r, List.mem_map_of_mem htries⟩
    · rcases hcompare m hm with hlt | rfl
      · exact hlt.le
      · exact Nat.le_refl _
    · rcases hcompare m hm with hlt | rfl
      · exact absurd hle (Nat.not_le_of_lt hlt)
      · exact Nat.le_refl _
  misses {cs} h := by
    rw [longestMatch, List.argmax_eq_none, List.flatMap_eq_nil_iff]
    intro r _
    rw [tries_of_misses (h r), List.map_nil]

theorem IsLongest.head?_tries (h : r.IsLongest w cs) :
    (r.pattern.tries cs).head? = some w.length := by
  refine (isGreedy r).head?_tries h.mem h.isPrefix fun v hv hpre => ?_
  rcases h.longest r v hv hpre with hlt | ⟨-, rfl⟩
  · exact hlt.le
  · exact Nat.le_refl _

/-- Rules that do not hide the longest match and do not make it have no match. -/
theorem IsLongest.misses (h : r.IsLongest w cs) {r' : Rule} (hne : r' ≠ r) (hides : ¬r'.Hides r) :
    r'.Misses cs := by
  intro v hv hpre
  rcases h.longest r' v hv hpre with hlt | ⟨heq, -⟩
  · refine hides ⟨v, hv, w, h.mem, List.prefix_of_prefix_length_le hpre h.isPrefix hlt.le, ?_⟩
    rintro rfl
    exact Nat.lt_irrefl _ hlt
  · exact hne heq

theorem chooses_firstMatch (hall : ∀ r, r ∈ order) (hunhidden : Unhidden order) :
    Chooses (firstMatch order) where
  longest {r w cs} h := by
    have hmem := hall r
    clear hall
    induction order with
    | nil => cases hmem
    | cons r' order ih =>
      obtain ⟨hfirst, hunhidden⟩ := List.pairwise_cons.mp hunhidden
      rw [firstMatch, List.findSome?_cons]
      by_cases heq : r' = r
      · rw [heq, h.head?_tries]
        rfl
      · -- an earlier rule that matched would hide the match of `r`
        have hmem : r ∈ order := (List.mem_cons.mp hmem).resolve_left (Ne.symm heq)
        rw [tries_of_misses (h.misses heq (hfirst r hmem))]
        exact ih hunhidden hmem
  misses {cs} h := by
    refine List.findSome?_eq_none_iff.mpr fun r _ => ?_
    rw [tries_of_misses (h r)]
    rfl

/-! ### Scanning with a choice -/

/-- What a rule makes of its match, before the rest of a scan. -/
def deliver (r : Rule) (w : List Char) (line position : Nat) (rest : Scan) : Scan :=
  match r with
  | newline => rest
  | comment => rest
  | ident => .token ⟨ofName w, line, position⟩ rest
  | «variable» => .token ⟨.variable (String.ofList w), line, position⟩ rest
  | enumValue => .token ⟨.enumValue (String.ofList w), line, position⟩ rest
  | real =>
    match decimalFront? w with
    | some (whole, fraction) =>
      let value := Binary64.ofDecimal false (digitsValue (whole ++ fraction)) (-fraction.length)
      .token ⟨.real value, line, position⟩ rest
    | none => rest
  | integer =>
    if w.length ≤ digitLimit then .token ⟨.integer (digitsValue w), line, position⟩ rest
    else .overlong w.length line
  | symbol s => .token ⟨.symbol s, line, position⟩ rest

def lines (r : Rule) (length : Nat) : Nat :=
  if r = newline then length else 0

/-- Scan a text, choosing the matches in the given way.  The first `skip` characters belong to a
    match already made. -/
def munch (choose : List Char → Option (Rule × Nat)) (skip line position : Nat) :
    List Char → Scan
  | [] => .finished line
  | c :: cs =>
    match skip with
    | skip + 1 => munch choose skip line (position + 1) cs
    | 0 =>
      if c = ' ' || c = '\t' then munch choose 0 line (position + 1) cs
      else
        match choose (c :: cs) with
        | none => .illegal c line (munch choose 0 line (position + 1) cs)
        | some (r, length) =>
          r.deliver ((c :: cs).take length) line position
            (munch choose (length - 1) (line + r.lines length) (position + 1) cs)

theorem deliver_spelled {l : Lexeme} (h : l.Spelled w) (hshort : isOverlong w = false)
    (line position : Nat) (rest : Scan) :
    l.rule.deliver w line position rest = .token ⟨l, line, position⟩ rest := by
  cases h with
  | word _ =>
    rw [rule_ofName]
    rfl
  | @real whole fraction hwhole hfraction =>
    have hdecimal : decimalFront? (whole ++ '.' :: fraction ++ []) = some (whole, fraction) :=
      Front.decimalFront?_append rfl hwhole hfraction
    rw [List.append_nil] at hdecimal
    simp only [rule, deliver, hdecimal]
  | integer hdigits =>
    rw [isOverlong, hdigits, Bool.true_and, decide_eq_false_iff_not, Nat.not_lt] at hshort
    exact if_pos hshort
  | _ => rfl

theorem lines_rule (l : Lexeme) (n : Nat) : l.rule.lines n = 0 := by
  cases l <;> rfl

variable {choose : List Char → Option (Rule × Nat)}

theorem munch_append (w : List Char) (line position : Nat) (cs : List Char) :
    munch choose w.length line position (w ++ cs) =
      munch choose 0 line (position + w.length) cs := by
  induction w generalizing position with
  | nil => rfl
  | cons c w ih =>
    rw [List.length_cons, List.cons_append, munch, ih, Nat.add_right_comm]
    rfl

theorem starting_blank : starting ' ' = [] ∧ starting '\t' = [] := by decide

/-- The longest match is delivered, and the scan goes on behind it. -/
theorem munch_of_isLongest {rest : List Char} (hchoose : Chooses choose) (h : r.IsLongest w cs)
    (hrest : w ++ rest = cs) (line position : Nat) :
    munch choose 0 line position cs = r.deliver w line position
      (munch choose 0 (line + r.lines w.length) (position + w.length) rest) := by
  obtain ⟨c, tail, rfl, hc⟩ := exists_starts h.mem
  have hblank : ¬(c = ' ' || c = '\t') = true := by
    rw [Bool.or_eq_true, decide_eq_true_eq, decide_eq_true_eq]
    rintro (rfl | rfl)
    · simpa [starting_blank.1] using mem_starting.mpr hc
    · simpa [starting_blank.2] using mem_starting.mpr hc
  have hfound := hchoose.longest h
  subst hrest
  rw [List.cons_append] at hfound
  rw [List.cons_append, munch, if_neg hblank, hfound]
  simp only
  rw [← List.cons_append, List.take_left, List.length_cons, Nat.add_sub_cancel, munch_append,
    Nat.add_assoc, Nat.add_comm 1]

end Rule

namespace Scan

/-- Newlines in a row are passed one by one. -/
theorem walk_newlines {w : List Char} (hw : ∀ c ∈ w, c = '\n') (line position : Nat)
    (cs : List Char) :
    walk 0 line position (w ++ cs) = walk 0 (line + w.length) (position + w.length) cs := by
  induction w generalizing line position with
  | nil => rfl
  | cons c w ih =>
    obtain ⟨rfl, hrest⟩ := List.forall_mem_cons.mp hw
    have hwalk := ih hrest (line + 1) (position + 1)
    rw [Nat.add_right_comm, Nat.add_right_comm position] at hwalk
    exact hwalk

/-- A scan that has skipped the rest of a piece goes on behind it. -/
theorem walk_behind {c : Char} {cs w rest : List Char} (hrest : w ++ rest = c :: cs) (hne : w ≠ [])
    (line position : Nat) :
    walk (w.length - 1) line (position + 1) cs = walk 0 line (position + w.length) rest := by
  obtain ⟨d, tail, rfl⟩ := List.exists_cons_of_ne_nil hne
  rw [List.cons_append] at hrest
  obtain ⟨rfl, rfl⟩ := List.cons.inj hrest
  rw [List.length_cons, Nat.add_sub_cancel, walk_append, Nat.add_assoc, Nat.add_comm 1]

end Scan

namespace Rule

/-- **Scanning with the longest matches is what the scanner does.** -/
theorem munch_eq_walk {choose : List Char → Option (Rule × Nat)} (hchoose : Chooses choose)
    (line position : Nat) (cs : List Char) :
    munch choose 0 line position cs = Scan.walk 0 line position cs := by
  -- both go on behind what is found first, so the induction is on the length of the text
  induction hlength : cs.length using Nat.strong_induction_on generalizing line position cs with
  | _ n ih =>
  subst hlength
  cases cs with
  | nil => rfl
  | cons c cs =>
    have hnext : ∀ line position, munch choose 0 line position cs = Scan.walk 0 line position cs :=
      fun line position => ih cs.length (Nat.lt_succ_self _) line position cs rfl
    -- a match takes at least one character, so the text behind it is shorter
    have hbehind : ∀ {r : Rule} {w}, r.IsLongest w (c :: cs) → ∃ rest, w ++ rest = c :: cs ∧
        w ≠ [] ∧ ∀ line position,
          munch choose 0 line position rest = Scan.walk 0 line position rest := by
      intro r w h
      obtain ⟨rest, hrest⟩ := h.isPrefix
      obtain ⟨d, tail, rfl, -⟩ := exists_starts h.mem
      refine ⟨rest, hrest, by simp, fun line position => ih rest.length ?_ line position rest rfl⟩
      rw [← hrest, List.length_append, List.length_cons]
      omega
    have hchosen := Front.chosen_of c cs
    generalize hfront : Front.of c cs = front at hchosen
    cases hchosen with
    | blank hc =>
      have hblank : (c = ' ' || c = '\t') = true := by simpa using hc
      rw [munch, if_pos hblank, Scan.walk, hfront]
      exact hnext line (position + 1)
    | @newline w hlongest =>
      obtain ⟨rest, hrest, -, hsame⟩ := hbehind hlongest
      have hnewlines := (mem_language_newline.mp hlongest.mem).2
      calc munch choose 0 line position (c :: cs)
          = munch choose 0 (line + w.length) (position + w.length) rest :=
            munch_of_isLongest hchoose hlongest hrest line position
        _ = Scan.walk 0 (line + w.length) (position + w.length) rest := hsame _ _
        _ = Scan.walk 0 line position (c :: cs) := by
            rw [← hrest, Scan.walk_newlines hnewlines]
    | @comment w hlongest =>
      obtain ⟨rest, hrest, hne, hsame⟩ := hbehind hlongest
      calc munch choose 0 line position (c :: cs)
          = munch choose 0 line (position + w.length) rest :=
            munch_of_isLongest hchoose hlongest hrest line position
        _ = Scan.walk (w.length - 1) line (position + 1) cs := by
            rw [hsame, Scan.walk_behind hrest hne]
        _ = Scan.walk 0 line position (c :: cs) := by rw [Scan.walk, hfront]
    | @lexeme l w hlongest hspelled hshort =>
      obtain ⟨rest, hrest, hne, hsame⟩ := hbehind hlongest
      calc munch choose 0 line position (c :: cs)
          = .token ⟨l, line, position⟩ (munch choose 0 line (position + w.length) rest) := by
            rw [munch_of_isLongest hchoose hlongest hrest, deliver_spelled hspelled hshort,
              lines_rule, Nat.add_zero]
        _ = .token ⟨l, line, position⟩ (Scan.walk (w.length - 1) line (position + 1) cs) := by
            rw [hsame, Scan.walk_behind hrest hne]
        _ = Scan.walk 0 line position (c :: cs) := by rw [Scan.walk, hfront]
    | @overlong w hlongest hlong =>
      obtain ⟨rest, hrest, -, -⟩ := hbehind hlongest
      rw [munch_of_isLongest hchoose hlongest hrest, Scan.walk, hfront]
      exact if_neg (Nat.not_le_of_lt hlong)
    | illegal hblank htab hmisses =>
      rw [munch, if_neg (by simp [hblank, htab]), hchoose.misses hmisses, Scan.walk, hfront]
      exact congrArg _ (hnext line (position + 1))

/-! ### Orders of the rules -/

variable {r r' : Rule}

/-- A symbol of one character is not hidden. -/
theorem not_hides_symbol {s : Symbol} (h : s.spelling.toList.length = 1) :
    ¬r.Hides (symbol s) := by
  rintro ⟨w, hw, v, hv, hpre, hne⟩
  obtain rfl := mem_language_symbol.mp hv
  obtain ⟨c, tail, rfl, -⟩ := exists_starts hw
  have hle := hpre.length_le
  refine hne (hpre.eq_of_length ?_)
  rw [List.length_cons] at hle ⊢
  omega

/-- The rules that are not for symbols hide only matches of their own, apart from integers before
    decimals. -/
theorem eq_of_hides (hr : ∀ s, r ≠ symbol s) (h : r.Hides r') :
    r' = r ∨ (r = integer ∧ r' = real) := by
  have hsymbol : ∀ {s : Symbol}, s.spelling.toList.length = 1 → r' ≠ symbol s := by
    rintro s hs rfl
    exact not_hides_symbol hs h
  obtain ⟨w, hw, v, hv, hpre, -⟩ := h
  obtain ⟨c, tail, rfl, hc⟩ := exists_starts hw
  obtain ⟨behind, rfl⟩ := hpre
  have hstarts := starts_of_isPrefix hv (List.prefix_refl (c :: (tail ++ behind)))
  have hr' := mem_starting.mpr hstarts
  cases r with
  | newline =>
    obtain rfl : c = '\n' := of_decide_eq_true hc
    rw [starting_newline, List.mem_singleton] at hr'
    exact .inl hr'
  | comment =>
    obtain rfl : c = '/' := of_decide_eq_true hc
    rw [starting_slash] at hr'
    exact .inl (by simpa [hsymbol (s := .slash) rfl] using hr')
  | ident => exact .inl (eq_of_starts_letter hc hstarts)
  | «variable» =>
    obtain rfl : c = '?' := of_decide_eq_true hc
    rw [starting_question] at hr'
    exact .inl (by simpa [hsymbol (s := .question) rfl] using hr')
  | enumValue =>
    obtain rfl : c = '@' := of_decide_eq_true hc
    rw [starting_at, List.mem_singleton] at hr'
    exact .inl hr'
  | real =>
    rcases Bool.or_eq_true_iff.mp hc with hdigit | hdot
    · refine .inl ((eq_of_starts_digit hdigit hstarts).resolve_right ?_)
      rintro rfl
      -- an integer has no point
      obtain ⟨whole, fraction, heq, -, -⟩ := mem_language_real.mp hw
      have hpoint : '.' ∈ c :: tail := by simp [heq]
      cases isDigit_of_isNumeral (mem_language_integer.mp hv) (List.mem_append_left behind hpoint)
    · obtain rfl : c = '.' := of_decide_eq_true hdot
      rw [starting_dot] at hr'
      exact .inl (by simpa [hsymbol (s := .dot) rfl] using hr')
  | integer =>
    rcases eq_of_starts_digit hc hstarts with rfl | rfl
    · exact .inr ⟨rfl, rfl⟩
    · exact .inl rfl
  | symbol s => exact absurd rfl (hr s)

/-- **In the order of the rules no match is hidden.** -/
theorem unhidden_order : Unhidden order := by
  have hmarks : ∀ r ∈ [newline, comment, ident, «variable», enumValue, real, integer],
      ∀ s, r ≠ symbol s := by
    simp
  have hordered : [newline, comment, ident, «variable», enumValue, real, integer].Pairwise
      fun r r' => r' ≠ r ∧ ¬(r = integer ∧ r' = real) := by
    decide
  refine List.pairwise_append.mpr ⟨?_, List.pairwise_map.mpr ?_, fun r hr r' hr' hides => ?_⟩
  · refine hordered.imp_of_mem fun hr _ hne hides => ?_
    exact (eq_of_hides (hmarks _ hr) hides).elim hne.1 hne.2
  · refine pairwise_symbols.imp fun {s s'} hshorter hides => ?_
    obtain ⟨w, hw, v, hv, hpre, hne⟩ := hides
    obtain rfl := mem_language_symbol.mp hw
    obtain rfl := mem_language_symbol.mp hv
    exact hne (hpre.eq_of_length_le hshorter.1)
  · obtain ⟨s, -, rfl⟩ := List.mem_map.mp hr'
    rcases eq_of_hides (hmarks r hr) hides with heq | ⟨-, heq⟩
    · exact hmarks r hr s heq.symm
    · cases heq

end Rule

/-- The characters of a token are the longest match of its rule. -/
theorem Scan.isLongest_of_mem_pieces {p : Piece} {text : List Char} {l : Lexeme}
    (h : p ∈ Scan.pieces 0 0 text) (hl : p.front.delivered = [l]) :
    l.rule.IsLongest p.chars (text.drop p.start) := by
  obtain ⟨c, rest, hdrop, hfront, hchars⟩ := Scan.front_of_mem_pieces h
  have hchosen := Front.chosen_of c rest
  rw [hfront] at hchosen
  cases hp : p.front with
  | lexeme value n =>
    rw [hp] at hl hchosen hchars
    cases hl
    cases hchosen with
    | lexeme hlongest hspelled _ =>
      rw [hchars, Front.tailLength, Scan.chars_eq_of_isPrefix hlongest.isPrefix hspelled.ne_nil,
        hdrop]
      exact hlongest
  | _ => simp [hp, Front.delivered] at hl

/-- **The scanner takes the longest match.**  Every token has the characters that its rule
    matches where it stands, and no rule, that of comments included, matches more there.  So
    the rules can be tried in any order if the longest match is kept.  If the first match is
    taken, the order must only not hide matches, and that of the rules does not. -/
theorem Scan.maximal_munch (line : Nat) (text : String) :
    List.Forall₂ (fun t p => t.position = p.start ∧ t.lexeme.Spelled p.chars ∧
        t.lexeme.rule.IsLongest p.chars (text.toList.drop p.start))
      (Scan.ofText line text).tokens (Scan.lexemePieces text.toList) ∧
    (∀ order, order.Perm Rule.order →
      Rule.munch (Rule.longestMatch order) 0 line 0 text.toList = Scan.ofText line text) ∧
    (∀ order, order.Perm Rule.order → Rule.Unhidden order →
      Rule.munch (Rule.firstMatch order) 0 line 0 text.toList = Scan.ofText line text) ∧
    Rule.Unhidden Rule.order := by
  have hall : ∀ {order : List Rule}, order.Perm Rule.order → ∀ r, r ∈ order :=
    fun hperm r => hperm.mem_iff.mpr (Rule.mem_order r)
  refine ⟨?_, fun order hperm => ?_, fun order hperm hunhidden => ?_, Rule.unhidden_order⟩
  · exact (Scan.tokens_ofText line text).imp fun t p h =>
      ⟨h.2.2.symm, Scan.spelled_of_mem_pieces h.1 h.2.1, Scan.isLongest_of_mem_pieces h.1 h.2.1⟩
  · exact Rule.munch_eq_walk (Rule.chooses_longestMatch (hall hperm)) line 0 text.toList
  · exact Rule.munch_eq_walk (Rule.chooses_firstMatch (hall hperm) hunhidden) line 0 text.toList

/-- A text in which many rules compete, scanned with the rules in reverse and in order. -/
theorem Scan.munch_of_marks :
    Rule.munch (Rule.longestMatch Rule.order.reverse) 0 1 0 "12.5?x//<=>\n<=>?~=.a-'".toList =
      Scan.ofText 1 "12.5?x//<=>\n<=>?~=.a-'" ∧
    Rule.munch (Rule.firstMatch Rule.order) 0 1 0 "12.5?x//<=>\n<=>?~=.a-'".toList =
      Scan.ofText 1 "12.5?x//<=>\n<=>?~=.a-'" ∧
    (Scan.ofText 1 "12.5?x//<=>\n<=>?~=.a-'").lexemes.map Lexeme.rule =
      [.real, .variable, .symbol .equivalent, .symbol .question, .symbol .unequal, .symbol .dot,
        .ident, .symbol .minus] :=
  ⟨(Scan.maximal_munch 1 _).2.1 _ (List.reverse_perm _),
    (Scan.maximal_munch 1 _).2.2.1 _ (List.Perm.refl _) (Scan.maximal_munch 1 "").2.2.2,
    by decide +kernel⟩

end Rddl
