/-
  Rddl/Proofs/Scan/Illegal.lean
  =============================
  **Illegal characters only separate.**

  Whatever stands before an illegal character ends there, as it would before a blank.  So a text
  with blanks in the place of its illegal characters has the same tokens in the same places.
  Carriage returns have to stay in this, and go on being reported: they end a comment, and a blank
  does not.  They end all that a newline ends, so a carriage return before every newline changes
  nothing but positions (`Scan.illegals_only_separate`).
-/
import Rddl.Proofs.Scan.Pieces

namespace Rddl

def Token.unplaced (t : Token) : Token := { t with position := 0 }

/-! ### Characters that end what stands before them -/

namespace Front

variable {b c : Char}

theorem ends_blank : Ends ' ' := ⟨by decide, by decide, by decide⟩

theorem ends_of_break (hb : b = '\r' ∨ b = '\n') : Ends b := by
  rcases hb with rfl | rfl
  · exact ⟨by decide, by decide, by decide⟩
  · exact ⟨by decide, by decide, by decide⟩

/-- What stands in a symbol behind its first character is a symbol, too. -/
theorem exists_symbol_of_mem_tail {s : Symbol} {d : Char} (hs : s ∈ Symbol.all)
    (hd : d ∈ s.spelling.toList.tail) : ∃ s' ∈ Symbol.all, s'.spelling.toList = [d] := by
  have hall : (Symbol.all.all fun s => s.spelling.toList.tail.all fun d =>
      Symbol.all.any fun s' => s'.spelling.toList == [d]) = true := by decide
  have htail := List.all_eq_true.mp (List.all_eq_true.mp hall s hs) d hd
  rcases List.any_eq_true.mp htail with ⟨s', hs', hspelling⟩
  exact ⟨s', hs', beq_iff_eq.mp hspelling⟩

/-- A character that starts no lexeme ends what stands before it. -/
theorem StartsNothing.ends (hc : StartsNothing c) : Ends c := by
  constructor
  · exact hc.isNameChar_eq_false
  · constructor
    · exact hc.ne_symbol (s := .dot) (by decide) rfl
    · exact hc.ne_symbol (s := .slash) (by decide) rfl
  · intro s hs hmem
    rcases exists_symbol_of_mem_tail hs hmem with ⟨s', hs', hspelling⟩
    exact hc.ne_symbol hs' hspelling rfl

/-- What is taken before the end of a line is what is taken at the end of the text. -/
theorem of_break (hb : b = '\r' ∨ b = '\n') (u v : List Char) :
    Front.of c (u ++ b :: v) = Front.of c u := by
  by_cases hcomment : c = '/' ∧ u.head? = some '/'
  · rcases hcomment with ⟨rfl, hhead⟩
    rw [of_eq_comment_iff.mpr ⟨⟨rfl, hhead⟩, rfl⟩, of_eq_comment_iff, ← List.cons_append,
      takeWhile_append_stop ('/' :: u) v (by rcases hb with rfl | rfl <;> decide)]
    exact ⟨⟨rfl, by simp [List.head?_append, hhead]⟩, rfl⟩
  · refine of_stop (ends_of_break hb) u v ?_ hcomment
    rintro rfl
    exact absurd hb (by decide)

end Front

namespace Scan

open Front

/-! ### Scans with changed tokens and fewer reports -/

/-- A scan with changed tokens, and with the reports of those illegal characters that are kept. -/
def revised (f : Token → Token) (keep : Char → Bool) : Scan → Scan
  | .token t rest => .token (f t) (rest.revised f keep)
  | .illegal c line rest =>
    if keep c then .illegal c line (rest.revised f keep) else rest.revised f keep
  | .overlong digits line => .overlong digits line
  | .finished line => .finished line

section Revised

variable (f : Token → Token) (keep : Char → Bool) (scan : Scan)

/-- A revision acts on the tokens and on the illegal characters by themselves. -/
theorem parts_revised :
    (scan.revised f keep).tokens = scan.tokens.map f ∧
      (scan.revised f keep).illegals = (scan.illegals.filter fun p => keep p.1) ∧
      (scan.revised f keep).fault? = scan.fault? := by
  induction scan with
  | token t rest ih => simp [revised, tokens, illegals, fault?, ih]
  | illegal c line rest ih =>
    by_cases hc : keep c <;> simp [revised, tokens, illegals, fault?, hc, ih]
  | _ => exact ⟨rfl, rfl, rfl⟩

theorem tokens_revised : (scan.revised f keep).tokens = scan.tokens.map f :=
  (parts_revised f keep scan).1

theorem illegals_revised :
    (scan.revised f keep).illegals = scan.illegals.filter fun p => keep p.1 :=
  (parts_revised f keep scan).2.1

theorem fault?_revised : (scan.revised f keep).fault? = scan.fault? :=
  (parts_revised f keep scan).2.2

end Revised

/-! ### Blanks for illegal characters -/

/-- A text with blanks in the place of its illegal characters, carriage returns excepted. -/
def blanked (text : List Char) : List Char :=
  text.mapIdx fun i c => if (i, c) ∈ illegalPlaces 0 0 text ∧ c ≠ '\r' then ' ' else c

/-- The same along the scan of a text, of which the first `skip` characters belong to a piece
    already taken. -/
def blankFrom (skip : Nat) : List Char → List Char
  | [] => []
  | c :: cs =>
    match skip with
    | skip + 1 => c :: blankFrom skip cs
    | 0 =>
      (if Front.of c cs = .illegal ∧ c ≠ '\r' then ' ' else c) ::
        if (Front.of c cs).isLast then cs else blankFrom (Front.of c cs).tailLength cs

theorem illegalPlaces_cons (start : Nat) (c : Char) (cs : List Char) :
    illegalPlaces 0 start (c :: cs) =
      (if Front.of c cs = .illegal then [(start, c)] else []) ++
        if (Front.of c cs).isLast then []
        else illegalPlaces (Front.of c cs).tailLength (start + 1) cs := by
  rw [illegalPlaces]
  cases hfront : Front.of c cs <;> simp [isLast, tailLength]

/-- The scan finds the illegal characters that are to be replaced. -/
theorem blankFrom_eq_mapIdx (skip start : Nat) (cs : List Char) :
    blankFrom skip cs = cs.mapIdx fun i c =>
      if (start + i, c) ∈ illegalPlaces skip start cs ∧ c ≠ '\r' then ' ' else c := by
  induction cs generalizing skip start with
  | nil => rfl
  | cons c cs ih =>
    -- places are listed from where the text starts, so this one is not among those behind it
    have hbehind : ∀ skip, (start, c) ∉ illegalPlaces skip (start + 1) cs := by
      intro skip hmem
      have hle := start_le_of_mem_illegalPlaces hmem
      omega
    cases skip with
    | succ skip =>
      rw [blankFrom, illegalPlaces, List.mapIdx_cons, ih skip (start + 1)]
      simp [hbehind, Nat.add_assoc, Nat.add_comm 1]
    | zero =>
      -- the first character is a place exactly if it is illegal
      have hfirst : (start, c) ∈ illegalPlaces 0 start (c :: cs) ↔ Front.of c cs = .illegal := by
        rw [illegalPlaces_cons, List.mem_append]
        by_cases hlast : (Front.of c cs).isLast = true
        · simp [hlast]
        · simp [hlast, hbehind]
      simp only [blankFrom, List.mapIdx_cons, Nat.add_zero, hfirst]
      rw [illegalPlaces_cons]
      congr 1
      split
      · exact List.ext_getElem (by simp) (by simp)
      · rw [ih _ (start + 1)]
        simp [Nat.add_assoc, Nat.add_comm 1]

theorem blanked_eq_blankFrom (text : List Char) : blanked text = blankFrom 0 text := by
  rw [blankFrom_eq_mapIdx 0 0]
  simp only [blanked, Nat.zero_add]

/-- Texts that agree up to a place behind their first `k` characters, where one of them has an
    illegal character and the other a blank. -/
inductive BlankedBehind (k : Nat) : List Char → List Char → Prop
  | same (cs : List Char) : BlankedBehind k cs cs
  | blank {b : Char} {u : List Char} (v v' : List Char) : k ≤ u.length → StartsNothing b →
      b ≠ '\r' → BlankedBehind k (u ++ b :: v) (u ++ ' ' :: v')

theorem BlankedBehind.mono {j k : Nat} {cs cs' : List Char} (h : BlankedBehind k cs cs')
    (hle : j ≤ k) : BlankedBehind j cs cs' := by
  cases h with
  | same => exact .same cs
  | blank v v' hk hb hreturn => exact .blank v v' (Nat.le_trans hle hk) hb hreturn

theorem BlankedBehind.cons {k : Nat} {cs cs' : List Char} (h : BlankedBehind k cs cs') (c : Char) :
    BlankedBehind (k + 1) (c :: cs) (c :: cs') := by
  cases h with
  | same => exact .same _
  | @blank b u v v' hk hb hreturn =>
    exact .blank (u := c :: u) v v' (Nat.succ_le_succ hk) hb hreturn

/-- A piece is the same in both texts if they agree along it. -/
theorem BlankedBehind.of_eq {c : Char} {cs cs' : List Char}
    (h : BlankedBehind (Front.of c cs).tailLength cs cs') : Front.of c cs' = Front.of c cs := by
  generalize hk : (Front.of c cs).tailLength = k at h
  cases h with
  | same => rfl
  | blank v v' hle hb hreturn =>
    rw [← hk] at hle
    exact of_append_stop hb.ends ⟨hreturn, hb.blank.2.2⟩ hle ends_blank (by decide) v'

theorem blankedBehind_blankFrom (skip : Nat) (cs : List Char) :
    BlankedBehind skip cs (blankFrom skip cs) := by
  induction cs generalizing skip with
  | nil => exact .same []
  | cons c cs ih =>
    cases skip with
    | succ skip => exact (ih skip).cons c
    | zero =>
      rw [blankFrom]
      split
      · next hillegal =>
        rcases startsNothing_of_illegal hillegal.1 with ⟨hc, -⟩
        exact .blank (u := []) cs _ (Nat.le_refl 0) hc hillegal.2
      · split
        · exact .same _
        · exact ((ih _).cons c).mono (Nat.zero_le _)

/-- **Blanks for illegal characters change a scan only in what is reported.** -/
theorem walk_blankFrom (skip line position : Nat) (cs : List Char) :
    walk skip line position (blankFrom skip cs) =
      (walk skip line position cs).revised id (· = '\r') := by
  induction cs generalizing skip line position with
  | nil => rfl
  | cons c cs ih =>
    cases skip with
    | succ skip => exact ih skip line (position + 1)
    | zero =>
      -- blanks behind a piece do not change it
      have hfront := (blankedBehind_blankFrom (Front.of c cs).tailLength cs).of_eq
      cases hc : Front.of c cs with
      -- a carriage return is kept and reported again; any other becomes a blank
      | illegal =>
        by_cases hreturn : c = '\r'
        · subst hreturn
          simp only [hc, tailLength] at hfront
          simp [blankFrom, walk, hc, hfront, isLast, tailLength, revised, ih]
        · have hblank : ∀ v, Front.of ' ' v = .blank := fun v => of_eq_blank_iff.mpr (.inl rfl)
          simp [blankFrom, walk, hc, hreturn, hblank, isLast, tailLength, revised, ih]
      | overlong digits => simp [blankFrom, walk, hc, isLast, revised]
      | _ =>
        simp only [hc, tailLength] at hfront
        simp [blankFrom, walk, hc, hfront, isLast, tailLength, revised, ih]

/-! ### Carriage returns before newlines -/

def withReturns : List Char → List Char
  | [] => []
  | c :: cs => if c = '\n' then '\r' :: '\n' :: withReturns cs else c :: withReturns cs

theorem of_return (cs : List Char) : Front.of '\r' cs = .illegal :=
  StartsNothing.of_eq_illegal ⟨by decide, by decide, by decide⟩ (absurd · (by decide))

theorem withReturns_append {u : List Char} (hu : '\n' ∉ u) (v : List Char) :
    withReturns (u ++ v) = u ++ withReturns v := by
  induction u with
  | nil => rfl
  | cons c u ih =>
    rw [List.mem_cons, not_or] at hu
    simp [withReturns, Ne.symm hu.1, ih hu.2]

/-- What is taken from a line is taken from it with a carriage return at its end. -/
theorem of_withReturns (c : Char) (cs : List Char) :
    Front.of c (withReturns cs) = Front.of c cs := by
  by_cases hnewline : '\n' ∈ cs
  · rcases List.eq_append_cons_of_mem hnewline with ⟨u, v, rfl, hu⟩
    rw [withReturns_append hu, withReturns, if_pos rfl, of_break (.inl rfl), of_break (.inr rfl)]
  · rw [← List.append_nil cs, withReturns_append hnewline, withReturns]

theorem newline_notMem_tail (c : Char) (cs : List Char) :
    '\n' ∉ cs.take (Front.of c cs).tailLength := by
  have htakes := takes_of c cs
  generalize Front.of c cs = front at htakes
  cases htakes with
  | comment hw _ hnewline => exact notMem_take_of_isPrefix hw hnewline
  | lexeme hw hl => exact notMem_take_of_isPrefix hw hl.newline_notMem
  | _ => simp [tailLength]

/-- **A carriage return at the end of every line changes nothing but positions.** -/
theorem walk_withReturns (skip line position position' : Nat) (cs : List Char)
    (hskip : '\n' ∉ cs.take skip) :
    (walk skip line position' (withReturns cs)).revised Token.unplaced (· ≠ '\r') =
      (walk skip line position cs).revised Token.unplaced (· ≠ '\r') := by
  induction cs generalizing skip line position position' with
  | nil => rfl
  | cons c cs ih =>
    cases skip with
    | succ skip =>
      -- the characters that are skipped hold no newline, so nothing is put between them
      rw [List.take_succ_cons, List.mem_cons, not_or] at hskip
      rw [withReturns, if_neg (Ne.symm hskip.1)]
      exact ih skip line (position + 1) (position' + 1) hskip.2
    | zero =>
      have hbehind := fun line =>
        ih _ line (position + 1) (position' + 1) (newline_notMem_tail c cs)
      rw [withReturns]
      split
      · next hc =>
        subst hc
        have hnewline : ∀ v, Front.of '\n' v = .newline := fun v => of_eq_newline_iff.mpr rfl
        simp only [walk, of_return, hnewline, revised]
        exact ih 0 (line + 1) (position + 1) _ (by simp)
      · next hc =>
        rw [walk, walk, of_withReturns]
        cases hfront : Front.of c cs with
        | overlong digits => rfl
        | newline => exact absurd (of_eq_newline_iff.mp hfront) hc
        | lexeme value length =>
          simp only [hfront, tailLength] at hbehind
          simp only [revised, hbehind, Token.unplaced]
        | _ =>
          simp only [hfront, tailLength] at hbehind
          simp only [revised, hbehind]

/-! ### Whole texts -/

/-- **Illegal characters only separate.**  With blanks in the place of all of them but the
    carriage returns a text has the same tokens in the same places, and of the reports those
    about carriage returns are left.  With a carriage return before every newline it has the
    same lexemes on the same lines. -/
theorem illegals_only_separate (line : Nat) (text : String) :
    ((ofText line text).illegals =
        (illegalPlaces 0 0 text.toList).map fun p => (p.2, line + newlinesBefore text.toList p.1)) ∧
    (∀ p ∈ illegalPlaces 0 0 text.toList, text.toList[p.1]? = some p.2) ∧
    ((ofText line (String.ofList (blanked text.toList))).tokens = (ofText line text).tokens ∧
      (ofText line (String.ofList (blanked text.toList))).illegals =
        (ofText line text).illegals.filter (·.1 = '\r') ∧
      (ofText line (String.ofList (blanked text.toList))).fault? = (ofText line text).fault?) ∧
    ((ofText line (String.ofList (withReturns text.toList))).tokens.map
        (fun t => (t.lexeme, t.line)) =
          (ofText line text).tokens.map (fun t => (t.lexeme, t.line)) ∧
      (ofText line (String.ofList (withReturns text.toList))).fault? =
        (ofText line text).fault?) := by
  have hlined := lined_ofText line text
  -- blanks lose the reports only
  have hblanked : ofText line (String.ofList (blanked text.toList)) =
      (ofText line text).revised id (· = '\r') := by
    rw [ofText, String.toList_ofList, blanked_eq_blankFrom]
    exact walk_blankFrom 0 line 0 text.toList
  -- carriage returns add reports and move places
  have hreturns : (ofText line (String.ofList (withReturns text.toList))).revised
      Token.unplaced (· ≠ '\r') = (ofText line text).revised Token.unplaced (· ≠ '\r') := by
    rw [ofText, String.toList_ofList]
    exact walk_withReturns 0 line 0 0 text.toList (by simp)
  refine ⟨hlined.illegals, ?_, ⟨?_, ?_, ?_⟩, ?_, ?_⟩
  · intro p hp
    rcases hlined.placed p hp with ⟨behind, hdrop, -⟩
    rw [← List.head?_drop, hdrop, List.head?_cons]
  · rw [hblanked, tokens_revised, List.map_id]
  · rw [hblanked, illegals_revised]
  · rw [hblanked, fault?_revised]
  · have htokens := congrArg Scan.tokens hreturns
    rw [tokens_revised, tokens_revised] at htokens
    have hlines := congrArg (List.map fun t => (t.lexeme, t.line)) htokens
    rwa [List.map_map, List.map_map] at hlines
  · rw [← fault?_revised Token.unplaced (· ≠ '\r'), hreturns, fault?_revised]

end Scan

end Rddl
