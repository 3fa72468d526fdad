/-
  Rddl/Proofs/Scan/Pieces.lean
  ============================
  **The pieces of a text.**

  The scanner takes a text piece by piece, and `Scan.pieces` are these pieces with their places
  and their characters.  They lie one behind the other and leave nothing out, unless an
  integer with too many digits ends the scan.  The tokens are the pieces that are lexemes, and
  what is left between them is blank, a comment or illegal (`Scanner.partition_of_scan`).
-/
import Mathlib.Data.List.Forall2
import Mathlib.Data.List.Nodup
import Rddl.Proofs.Scan.Cuts
import Rddl.Proofs.Scan.Lines
import Rddl.Scanner

namespace Rddl

/-- A piece of a text: what the scanner makes of it, where it starts, and its characters. -/
structure Piece where
  front : Front
  start : Nat
  chars : List Char

namespace Piece

def stop (p : Piece) : Nat := p.start + p.chars.length

def Covers (p : Piece) (i : Nat) : Prop := p.start ≤ i ∧ i < p.stop

def isLexeme (p : Piece) : Bool := !p.front.delivered.isEmpty

def isComment (p : Piece) : Bool :=
  match p.front with
  | .comment _ => true
  | _ => false

def illegal? (p : Piece) : Option (Nat × Char) :=
  match p.front with
  | .illegal => p.chars.head?.map (p.start, ·)
  | _ => none

end Piece

namespace Scan

open Front

/-- The pieces of a text from a place on.  The first `skip` characters belong to a piece already
    taken. -/
def pieces (skip start : Nat) : List Char → List Piece
  | [] => []
  | c :: cs =>
    match skip with
    | skip + 1 => pieces skip (start + 1) cs
    | 0 =>
      ⟨Front.of c cs, start, c :: cs.take (Front.of c cs).tailLength⟩ ::
        if (Front.of c cs).isLast then [] else pieces (Front.of c cs).tailLength (start + 1) cs

def lexemePieces (text : List Char) : List Piece := (pieces 0 0 text).filter Piece.isLexeme

def commentPieces (text : List Char) : List Piece := (pieces 0 0 text).filter Piece.isComment

/-! ### Where pieces are -/

variable {skip start : Nat} {cs : List Char} {p : Piece}

theorem start_le_of_mem_pieces (h : p ∈ pieces skip start cs) : start + skip ≤ p.start := by
  induction cs generalizing skip start with
  | nil => simp [pieces] at h
  | cons c cs ih =>
    cases skip with
    | succ skip =>
      have hle := ih h
      omega
    | zero =>
      rw [pieces] at h
      rcases List.mem_cons.mp h with rfl | h
      · exact Nat.le_refl _
      · split at h
        · simp at h
        · have hle := ih h
          omega

/-- Pieces lie one behind the other. -/
theorem pairwise_pieces (skip start : Nat) (cs : List Char) :
    (pieces skip start cs).Pairwise fun p q => p.stop ≤ q.start := by
  induction cs generalizing skip start with
  | nil => exact .nil
  | cons c cs ih =>
    cases skip with
    | succ skip => exact ih skip (start + 1)
    | zero =>
      rw [pieces, List.pairwise_cons]
      split
      · exact ⟨by simp, .nil⟩
      · refine ⟨fun q hq => ?_, ih _ _⟩
        have hle := start_le_of_mem_pieces hq
        simp only [Piece.stop, List.length_cons, List.length_take]
        omega

/-- What a piece is and where it stands in the text. -/
theorem of_mem_pieces (before : List Char) (h : p ∈ pieces skip before.length cs) :
    ∃ c rest, (before ++ cs).drop p.start = c :: rest ∧ Front.of c rest = p.front ∧
      p.chars = c :: rest.take p.front.tailLength := by
  induction cs generalizing skip before with
  | nil => simp [pieces] at h
  | cons c cs ih =>
    -- the pieces behind the first character, with that character put before them
    have hbehind : ∀ {skip}, p ∈ pieces skip (before.length + 1) cs →
        ∃ c' rest, (before ++ c :: cs).drop p.start = c' :: rest ∧ Front.of c' rest = p.front ∧
          p.chars = c' :: rest.take p.front.tailLength := by
      intro skip hp
      have hih := ih (before ++ [c]) (by rwa [List.length_append])
      rwa [List.append_assoc] at hih
    cases skip with
    | succ skip => exact hbehind h
    | zero =>
      rw [pieces] at h
      rcases List.mem_cons.mp h with rfl | h
      · exact ⟨c, cs, List.drop_left, rfl, rfl⟩
      · split at h
        · simp at h
        · exact hbehind h

/-! ### Pieces and scans -/

/-- A scan without a fault goes on behind its first piece. -/
theorem fault?_behind {c : Char} {line : Nat} (h : (walk 0 line start (c :: cs)).fault? = none)
    (line' : Nat) : (Front.of c cs).isLast = false ∧
      (walk (Front.of c cs).tailLength line' (start + 1) cs).fault? = none := by
  have hlast : (Front.of c cs).isLast = false := by
    cases hfront : Front.of c cs with
    | overlong digits => simp [walk, hfront, Scan.fault?] at h
    | _ => rfl
  exact ⟨hlast, (walk_cons_leads hlast line start line' (start + 1)).fault ▸ h⟩

/-- Every character of a text that is scanned to its end is in a piece. -/
theorem exists_covers {line i : Nat} (hfault : (walk skip line start cs).fault? = none)
    (hi : start + skip ≤ i) (hlt : i < start + cs.length) :
    ∃ p ∈ pieces skip start cs, p.Covers i ∧ p.front.isLast = false := by
  induction cs generalizing skip start line with
  | nil =>
    rw [List.length_nil] at hlt
    omega
  | cons c cs ih =>
    rw [List.length_cons] at hlt
    cases skip with
    | succ skip => exact ih hfault (by omega) (by omega)
    | zero =>
      obtain ⟨hlast, hrest⟩ := fault?_behind hfault line
      rw [pieces, hlast]
      by_cases hfirst : i ≤ start + (Front.of c cs).tailLength
      · -- in the first piece
        refine ⟨_, List.mem_cons_self, ⟨hi, ?_⟩, hlast⟩
        simp only [Piece.stop, List.length_cons, List.length_take]
        omega
      · -- in a piece behind it
        obtain ⟨p, hp, hcovers⟩ := ih hrest (by omega) (by omega)
        exact ⟨p, List.mem_cons_of_mem _ hp, hcovers⟩

theorem forall₂_tokens (skip line start : Nat) (cs : List Char) :
    List.Forall₂ (fun t p => p.front.delivered = [t.lexeme] ∧ p.start = t.position)
      (walk skip line start cs).tokens ((pieces skip start cs).filter Piece.isLexeme) := by
  induction cs generalizing skip line start with
  | nil => exact .nil
  | cons c cs ih =>
    cases skip with
    | succ skip => exact ih skip line (start + 1)
    | zero =>
      rw [walk, pieces]
      cases hfront : Front.of c cs with
      | lexeme value length => exact .cons ⟨rfl, rfl⟩ (ih _ _ _)
      | overlong digits => exact .nil
      | _ => exact ih _ _ _

theorem illegalPlaces_eq (skip start : Nat) (cs : List Char) :
    illegalPlaces skip start cs = (pieces skip start cs).filterMap Piece.illegal? := by
  induction cs generalizing skip start with
  | nil => rfl
  | cons c cs ih =>
    cases skip with
    | succ skip => exact ih skip (start + 1)
    | zero =>
      rw [illegalPlaces, pieces]
      cases hfront : Front.of c cs with
      | illegal => exact congrArg _ (ih 0 (start + 1))
      | overlong digits => rfl
      | _ => exact ih _ _

theorem start_of_illegal? {q : Nat × Char} (h : p.illegal? = some q) : q.1 = p.start := by
  unfold Piece.illegal? at h
  split at h
  · obtain ⟨c, -, rfl⟩ := Option.map_eq_some_iff.mp h
    rfl
  · cases h

theorem start_le_of_mem_illegalPlaces {q : Nat × Char} (h : q ∈ illegalPlaces skip start cs) :
    start + skip ≤ q.1 := by
  rw [illegalPlaces_eq, List.mem_filterMap] at h
  obtain ⟨p, hp, hq⟩ := h
  rw [start_of_illegal? hq]
  exact start_le_of_mem_pieces hp

/-! ### What pieces are -/

variable {text : List Char}

theorem front_of_mem_pieces (h : p ∈ pieces 0 0 text) :
    ∃ c rest, text.drop p.start = c :: rest ∧ Front.of c rest = p.front ∧
      p.chars = c :: rest.take p.front.tailLength := of_mem_pieces [] h

theorem chars_isPrefix (h : p ∈ pieces 0 0 text) : p.chars <+: text.drop p.start := by
  obtain ⟨c, rest, hdrop, -, hchars⟩ := front_of_mem_pieces h
  rw [hdrop, hchars]
  exact (List.prefix_cons_inj c).mpr (List.take_prefix _ _)

theorem start_lt_stop (h : p ∈ pieces 0 0 text) : p.start < p.stop := by
  obtain ⟨c, rest, -, -, hchars⟩ := front_of_mem_pieces h
  rw [Piece.stop, hchars, List.length_cons]
  omega

/-- The characters of a piece that has a known beginning of the text for its characters. -/
theorem chars_eq_of_isPrefix {c : Char} {rest w : List Char} (hw : w <+: c :: rest) (hne : w ≠ []) :
    c :: rest.take (w.length - 1) = w := by
  cases w with
  | nil => exact absurd rfl hne
  | cons d w =>
    obtain ⟨rfl, htail⟩ := List.cons_prefix_cons.mp hw
    rw [List.length_cons, Nat.add_sub_cancel, ← List.prefix_iff_eq_take.mp htail]

theorem spelled_of_mem_pieces {l : Lexeme} (h : p ∈ pieces 0 0 text)
    (hl : p.front.delivered = [l]) : l.Spelled p.chars := by
  obtain ⟨c, rest, -, hfront, hchars⟩ := front_of_mem_pieces h
  have htakes := Front.takes_of c rest
  rw [hfront] at htakes
  cases hp : p.front with
  | lexeme value n =>
    rw [hp] at hl htakes hchars
    cases hl
    cases htakes with
    | lexeme hw hspelled =>
      rw [hchars, tailLength, chars_eq_of_isPrefix hw hspelled.ne_nil]
      exact hspelled
  | _ => simp [hp, delivered] at hl

theorem comment_of_mem_pieces (h : p ∈ pieces 0 0 text) (hcomment : p.isComment = true) :
    ∃ remark, p.chars = '/' :: '/' :: remark ∧ '\r' ∉ remark ∧ '\n' ∉ remark := by
  obtain ⟨c, rest, -, hfront, hchars⟩ := front_of_mem_pieces h
  cases hp : p.front with
  | comment n =>
    rw [hp] at hfront hchars
    obtain ⟨⟨rfl, hhead⟩, rfl⟩ := of_eq_comment_iff.mp hfront
    obtain ⟨rest, rfl⟩ := List.head?_eq_some_iff.mp hhead
    refine ⟨rest.takeWhile fun x => x ≠ '\r' && x ≠ '\n', ?_, fun hmem => ?_, fun hmem => ?_⟩
    · rw [hchars, tailLength, chars_eq_of_isPrefix (List.takeWhile_prefix _) (by simp)]
      simp
    · simpa using List.all_eq_true.mp List.all_takeWhile _ hmem
    · simpa using List.all_eq_true.mp List.all_takeWhile _ hmem
  | _ => simp [Piece.isComment, hp] at hcomment

theorem getElem?_start {c : Char} {rest : List Char} {i : Nat} (hdrop : text.drop i = c :: rest) :
    text[i]? = some c := by
  have hhead := congrArg List.head? hdrop
  rwa [List.head?_drop] at hhead

/-- A piece of one character is at the place that it covers. -/
theorem start_eq_of_covers {c : Char} {i : Nat} (hchars : p.chars = [c]) (hcovers : p.Covers i) :
    p.start = i := by
  obtain ⟨hle, hlt⟩ := hcovers
  rw [Piece.stop, hchars, List.length_singleton] at hlt
  omega

/-- The pieces of a text do not overlap. -/
theorem eq_of_covers {p q : Piece} {i : Nat} (hp : p ∈ pieces 0 0 text) (hq : q ∈ pieces 0 0 text)
    (hpi : p.Covers i) (hqi : q.Covers i) : p = q := by
  by_contra hne
  have hapart : p.stop ≤ q.start ∨ q.stop ≤ p.start := by
    obtain ⟨i, hi, rfl⟩ := List.getElem_of_mem hp
    obtain ⟨j, hj, rfl⟩ := List.getElem_of_mem hq
    have hij : i ≠ j := by
      rintro rfl
      exact hne rfl
    rcases Nat.lt_or_gt_of_ne hij with hlt | hlt
    · exact .inl (List.pairwise_iff_getElem.mp (pairwise_pieces 0 0 text) i j hi hj hlt)
    · exact .inr (List.pairwise_iff_getElem.mp (pairwise_pieces 0 0 text) j i hj hi hlt)
  obtain ⟨hple, hplt⟩ := hpi
  obtain ⟨hqle, hqlt⟩ := hqi
  omega

/-- The illegal places of a text are those of its illegal pieces. -/
theorem mem_illegalPlaces_iff {i : Nat} {c : Char} :
    (i, c) ∈ illegalPlaces 0 0 text ↔
      ∃ p ∈ pieces 0 0 text, p.front = .illegal ∧ p.start = i ∧ p.chars = [c] := by
  rw [illegalPlaces_eq, List.mem_filterMap]
  refine exists_congr fun p => and_congr_right fun hp => ?_
  obtain ⟨d, rest, -, -, hchars⟩ := front_of_mem_pieces hp
  cases hfront : p.front with
  | illegal =>
    have hd : p.chars = [d] := by simpa [hfront, tailLength] using hchars
    simp [Piece.illegal?, hfront, hd]
  | _ => simp [Piece.illegal?, hfront]

theorem pairwise_illegalPlaces (text : List Char) :
    (illegalPlaces 0 0 text).Pairwise fun q q' => q.1 < q'.1 := by
  rw [illegalPlaces_eq, List.pairwise_filterMap]
  refine (pairwise_pieces 0 0 text).imp_of_mem fun hp _ hle q hq q' hq' => ?_
  have hlt := start_lt_stop hp
  rw [start_of_illegal? hq, start_of_illegal? hq']
  omega

theorem nodup_illegalPlaces (text : List Char) : (illegalPlaces 0 0 text).Nodup := by
  refine (pairwise_illegalPlaces text).imp fun {q q'} hlt heq => ?_
  subst heq
  exact Nat.lt_irrefl q.1 hlt

/-! ### The partition of a text -/

/-- How the tokens and the illegal characters of a scan lie in its text, of which the first line
    has the given number. -/
structure Partitions (text : List Char) (line : Nat) (scan : Scan) : Prop where
  tokens : List.Forall₂ (fun t p => t.position = p.start ∧ t.lexeme.Spelled p.chars) scan.tokens
    (lexemePieces text)
  spans : ∀ p ∈ lexemePieces text, p.start < p.stop ∧ p.chars <+: text.drop p.start
  disjoint : (lexemePieces text).Pairwise fun p q => p.stop ≤ q.start
  comments : ∀ p ∈ commentPieces text, p.chars <+: text.drop p.start ∧
    ∃ remark, p.chars = '/' :: '/' :: remark ∧ '\r' ∉ remark ∧ '\n' ∉ remark
  outside : ∀ i c, text[i]? = some c → (∀ p ∈ lexemePieces text, ¬p.Covers i) →
    c = ' ' ∨ c = '\t' ∨ c = '\n' ∨ (∃ p ∈ commentPieces text, p.Covers i) ∨
      (illegalPlaces 0 0 text).count (i, c) = 1
  reported : ∀ q ∈ illegalPlaces 0 0 text, text[q.1]? = some q.2 ∧
    (q.2 ≠ ' ' ∧ q.2 ≠ '\t' ∧ q.2 ≠ '\n') ∧
    ∀ p ∈ lexemePieces text ++ commentPieces text, ¬p.Covers q.1
  ordered : (illegalPlaces 0 0 text).Pairwise fun q q' => q.1 < q'.1
  messages : scan.illegals =
    (illegalPlaces 0 0 text).map fun q => (q.2, line + newlinesBefore text q.1)
  lines : ∀ t ∈ scan.tokens, t.line = line + newlinesBefore text t.position

theorem outside_of_fault? {line i : Nat} {c : Char}
    (hfault : (walk 0 line 0 text).fault? = none) (hc : text[i]? = some c)
    (hout : ∀ p ∈ lexemePieces text, ¬p.Covers i) :
    c = ' ' ∨ c = '\t' ∨ c = '\n' ∨ (∃ p ∈ commentPieces text, p.Covers i) ∨
      (i, c) ∈ illegalPlaces 0 0 text := by
  have hlt : i < text.length := (List.getElem?_eq_some_iff.mp hc).1
  obtain ⟨p, hp, hcovers, hlast⟩ := exists_covers hfault (i := i) (by omega) (by omega)
  obtain ⟨d, rest, hdrop, hfront, hchars⟩ := front_of_mem_pieces hp
  -- a piece of one character has just the character that is asked for
  have hsingle : p.front.tailLength = 0 → p.start = i ∧ p.chars = [d] ∧ d = c := by
    intro htail
    rw [htail, List.take_zero] at hchars
    have hstart := start_eq_of_covers hchars hcovers
    have hd := getElem?_start hdrop
    rw [hstart, hc] at hd
    exact ⟨hstart, hchars, (Option.some.inj hd).symm⟩
  cases hkind : p.front with
  | blank =>
    obtain ⟨-, -, rfl⟩ := hsingle (by rw [hkind]; rfl)
    rcases of_eq_blank_iff.mp (hfront.trans hkind) with rfl | rfl
    · exact .inl rfl
    · exact .inr (.inl rfl)
  | newline =>
    obtain ⟨-, -, rfl⟩ := hsingle (by rw [hkind]; rfl)
    exact .inr (.inr (.inl (of_eq_newline_iff.mp (hfront.trans hkind))))
  | comment n =>
    have hcomment : p.isComment = true := by rw [Piece.isComment, hkind]
    exact .inr (.inr (.inr (.inl ⟨p, List.mem_filter.mpr ⟨hp, hcomment⟩, hcovers⟩)))
  | lexeme l n =>
    have hlexeme : p.isLexeme = true := by rw [Piece.isLexeme, hkind]; rfl
    exact absurd hcovers (hout p (List.mem_filter.mpr ⟨hp, hlexeme⟩))
  | overlong n => simp [hkind, isLast] at hlast
  | illegal =>
    obtain ⟨hstart, hd, rfl⟩ := hsingle (by rw [hkind]; rfl)
    exact .inr (.inr (.inr (.inr (mem_illegalPlaces_iff.mpr ⟨p, hp, hkind, hstart, hd⟩))))

/-- No lexeme and no comment reaches over an illegal character. -/
theorem not_covers_of_mem_illegalPlaces {q : Nat × Char} (hq : q ∈ illegalPlaces 0 0 text)
    (hp : p ∈ lexemePieces text ++ commentPieces text) : ¬p.Covers q.1 := by
  intro hcovers
  obtain ⟨p', hp', hillegal, hstart, hchars⟩ := mem_illegalPlaces_iff.mp hq
  have hcovers' : p'.Covers q.1 := by
    rw [Piece.Covers, Piece.stop, hstart, hchars, List.length_singleton]
    omega
  rcases List.mem_append.mp hp with hp | hp
  · obtain ⟨hp, hlexeme⟩ := List.mem_filter.mp hp
    rw [eq_of_covers hp hp' hcovers hcovers', Piece.isLexeme, hillegal] at hlexeme
    cases hlexeme
  · obtain ⟨hp, hcomment⟩ := List.mem_filter.mp hp
    rw [eq_of_covers hp hp' hcovers hcovers', Piece.isComment, hillegal] at hcomment
    cases hcomment

/-- The tokens of a text are its pieces that are lexemes. -/
theorem tokens_ofText (line : Nat) (text : String) :
    List.Forall₂ (fun t p => p ∈ pieces 0 0 text.toList ∧ p.front.delivered = [t.lexeme] ∧
      p.start = t.position) (ofText line text).tokens (lexemePieces text.toList) := by
  obtain ⟨hlength, hzip⟩ := List.forall₂_iff_zip.mp (forall₂_tokens 0 line 0 text.toList)
  refine List.forall₂_iff_zip.mpr ⟨hlength, fun {t p} hmem => ?_⟩
  exact ⟨(List.mem_filter.mp (List.of_mem_zip hmem).2).1, hzip hmem⟩

theorem partitions_ofText {line : Nat} {text : String}
    (hfault : (ofText line text).fault? = none) :
    (ofText line text).Partitions text.toList line where
  tokens := (tokens_ofText line text).imp fun _ _ h => ⟨h.2.2.symm, spelled_of_mem_pieces h.1 h.2.1⟩
  spans p hp := by
    have hp := (List.mem_filter.mp hp).1
    exact ⟨start_lt_stop hp, chars_isPrefix hp⟩
  disjoint := (pairwise_pieces 0 0 text.toList).filter _
  comments p hp := by
    obtain ⟨hp, hcomment⟩ := List.mem_filter.mp hp
    exact ⟨chars_isPrefix hp, comment_of_mem_pieces hp hcomment⟩
  outside i c hc hout := by
    have hone := List.count_eq_one_of_mem (a := (i, c)) (nodup_illegalPlaces text.toList)
    exact (outside_of_fault? hfault hc hout).imp_right (.imp_right (.imp_right (.imp_right hone)))
  reported q hq := by
    obtain ⟨behind, hdrop, hillegal⟩ := (lined_ofText line text).placed q hq
    exact ⟨getElem?_start hdrop, (startsNothing_of_illegal hillegal).1.blank,
      fun p hp => not_covers_of_mem_illegalPlaces hq hp⟩
  ordered := pairwise_illegalPlaces text.toList
  messages := (lined_ofText line text).illegals
  lines t ht := ((lined_ofText line text).tokens t ht).1

end Scan

/-- **The tokens of a text partition it and carry its lines.**  Outside the tokens there are
    only blanks, comments and the characters that are reported as illegal, and the scanner
    has counted all newlines when it is done. -/
theorem Scanner.partition_of_scan {line : Nat} {text : String} {scan : Scan} {next : Scanner}
    (hscan : Scanner.scan ⟨some line⟩ text = (.ok scan, next)) (hfault : scan.fault? = none) :
    scan.Partitions text.toList line ∧ next = ⟨some (line + text.toList.count '\n')⟩ := by
  obtain ⟨rfl, rfl⟩ : Scan.ofText line text = scan ∧
      ⟨some (Scan.ofText line text).lastLine⟩ = next := by
    simpa [Scanner.scan, Scanner.line] using hscan
  obtain ⟨n, -, hlast, hn⟩ := (Scan.lined_ofText line text).lastLine
  rw [hlast, hn hfault, Scan.newlinesBefore, List.take_length]
  exact ⟨Scan.partitions_ofText hfault, rfl⟩

theorem Scanner.partition_of_line_seven :
    (Scan.ofText 7 "a.$ b // c\n\r1.5\n?x").Partitions "a.$ b // c\n\r1.5\n?x".toList 7 ∧
      (Scanner.scan ⟨some 7⟩ "a.$ b // c\n\r1.5\n?x").2 = ⟨some 9⟩ :=
  Scanner.partition_of_scan rfl (by decide +kernel)

end Rddl
