/-
  Rddl/Proofs/Lines.lean
  ======================
  **The lines that messages name.**

  A session counts lines on from one text to the next.  So every message about a text
  names the line of its place in the text, moved on by the newlines that were read in the
  texts before (`Session.message_lines`).  Only where there were none, or where there is
  no such message, are these the lines of the text itself.
-/
import Mathlib.Algebra.GroupWithZero.Nat
import Rddl.Proofs.Course
import Rddl.Proofs.Scan.Lines
import Rddl.Proofs.Session

namespace Rddl

/-! ### Messages that name a line -/

namespace Message

/-- The illegal character that a message is about, with the line it names. -/
def illegal? : Message → Option (Char × Nat)
  | .illegal c line => some (c, line)
  | _ => none

def line? : Message → Option Nat
  | .illegal _ line => some line
  | .rejected t => some t.line
  | _ => none

/-- Messages about a text name the lines of the places they are about, the first line of
    the text having the given number. -/
structure NameLines (first : Nat) (text : List Char) (log : List Message) : Prop where
  placed : ∀ p ∈ Scan.illegalPlaces 0 0 text, ∃ behind,
    text.drop p.1 = p.2 :: behind ∧ Front.of p.2 behind = .illegal
  illegals : log.filterMap illegal? <+:
    (Scan.illegalPlaces 0 0 text).map fun p => (p.2, first + Scan.newlinesBefore text p.1)
  rejected : ∀ t, .rejected t ∈ log → t.line = first + Scan.newlinesBefore text t.position ∧
    ∃ w, t.lexeme.Spelled w ∧ w <+: text.drop t.position

end Message

/-! ### What a reading does with its scan -/

namespace Scan

theorem skipped_illegals (s : Scan) :
    s.skipped.filterMap Message.illegal? ++ s.settled.illegals = s.illegals := by
  induction s with
  | illegal c line rest ih => exact congrArg ((c, line) :: ·) ih
  | token t rest ih => rfl
  | overlong digits line => rfl
  | finished line => rfl

theorem rejected_notMem_skipped (s : Scan) (t : Token) : .rejected t ∉ s.skipped := by
  intro h
  simpa [Message.isError] using isError_of_mem_skipped h

theorem lastLine_settled (s : Scan) : s.settled.lastLine = s.lastLine :=
  apply_settled lastLine (fun _ _ _ => rfl) s

end Scan

namespace Cursor

structure Within (scan : Scan) (c : Cursor) : Prop where
  settled : c.ahead.settled = c.ahead
  tokens : c.ahead.tokens <:+ scan.tokens
  lastLine : c.ahead.lastLine = scan.lastLine
  fault : c.ahead.fault? = scan.fault?
  /-- An illegal character is in the log, or still ahead. -/
  illegals : c.log.reverse.filterMap Message.illegal? ++ c.ahead.illegals = scan.illegals
  rejected : ∀ t, .rejected t ∈ c.log → t ∈ scan.tokens

namespace Within

variable {scan : Scan} {c : Cursor}

theorem settled_settled (s : Scan) : s.settled.settled = s.settled :=
  Scan.apply_settled Scan.settled (fun _ _ _ => rfl) s

theorem startOf (scan : Scan) : Within scan (Reading.startOf scan) := by
  refine ⟨settled_settled scan, ?_, Scan.lastLine_settled scan, Scan.fault?_settled scan, ?_, ?_⟩
  · simp only [Reading.startOf, Scan.tokens_settled, List.suffix_refl]
  · rw [Reading.startOf, List.reverse_reverse]
    exact Scan.skipped_illegals scan
  · intro t ht
    exact absurd (List.mem_reverse.mp ht) (scan.rejected_notMem_skipped t)

/-- Going on behind the token ahead, after more was logged that is not about illegal
    characters. -/
theorem behind (h : Within scan c) {t : Token} {rest : Scan} (hahead : c.ahead = .token t rest)
    {log : List Message} (hlog : log.reverse.filterMap Message.illegal? =
      c.log.reverse.filterMap Message.illegal?)
    (hrejected : ∀ t, .rejected t ∈ log → t ∈ scan.tokens) (patience : Nat) :
    Within scan (.behind rest log patience) := by
  obtain ⟨-, htokens, hlast, hfault, hillegals, -⟩ := h
  rw [hahead] at htokens hlast hfault hillegals
  refine ⟨settled_settled rest, ?_, ?_, ?_, ?_, ?_⟩
  · rw [Cursor.behind, Scan.tokens_settled]
    exact (List.suffix_cons t rest.tokens).trans htokens
  · rw [Cursor.behind, Scan.lastLine_settled]
    exact hlast
  · rw [Cursor.behind, Scan.fault?_settled]
    exact hfault
  · -- the illegal characters that are skipped are those that come next
    rw [Cursor.behind, List.reverse_append, List.reverse_reverse, List.filterMap_append, hlog,
      List.append_assoc, Scan.skipped_illegals]
    exact hillegals
  · intro t ht
    rcases List.mem_append.mp ht with ht | ht
    · exact absurd (List.mem_reverse.mp ht) (rest.rejected_notMem_skipped t)
    · exact hrejected t ht

theorem mem_tokens (h : Within scan c) {t : Token} {rest : Scan}
    (hahead : c.ahead = .token t rest) : t ∈ scan.tokens := by
  have htokens := h.tokens
  rw [hahead] at htokens
  exact htokens.subset List.mem_cons_self

theorem isKept (scan : Scan) : Reading.IsKept (Within scan) where
  advance h hahead := h.behind hahead rfl h.rejected _
  announce title h := by
    refine ⟨h.settled, h.tokens, h.lastLine, h.fault, ?_, ?_⟩
    · have hnone : [Message.parsed title].filterMap Message.illegal? = [] := rfl
      rw [List.reverse_cons, List.filterMap_append, hnone, List.append_nil]
      exact h.illegals
    · intro t ht
      exact h.rejected t (by simpa using ht)
  -- the token that is dropped is reported, unless there was an error shortly before
  restart {c t rest} h hahead := by
    refine h.behind hahead ?_ ?_ _
    · rw [Reading.report]
      split <;> simp [Message.illegal?]
    · intro t' ht'
      rw [Reading.report] at ht'
      split at ht'
      · rcases List.mem_cons.mp ht' with heq | ht'
        · cases heq
          exact h.mem_tokens hahead
        · exact h.rejected t' ht'
      · exact h.rejected t' ht'

end Within

end Cursor

/-! ### Readings of a text -/

namespace Reading

variable {scan : Scan}

/-- The illegal characters in a log are the first ones of the scan. -/
theorem illegals_of_log (scan : Scan) :
    (ofScan scan).log.filterMap Message.illegal? <+: scan.illegals := by
  have hprefix : ∀ c : Cursor, c.Within scan →
      c.log.reverse.filterMap Message.illegal? <+: scan.illegals := by
    intro c hc
    rw [← hc.illegals]
    exact List.prefix_append _ _
  have hends := ends (Cursor.Within.isKept scan) (Cursor.Within.startOf scan)
  generalize ofScan scan = r at hends
  cases hends with
  | model m hc _ => exact hprefix _ hc
  | fault hc _ => exact hprefix _ hc
  | @cutOff c _ hc _ =>
    have hlog : (cutOff c).log.filterMap Message.illegal? =
        c.log.reverse.filterMap Message.illegal? := by
      simp only [cutOff, endingAt, report]
      split <;> simp [Message.illegal?]
    rw [hlog]
    exact hprefix c hc

theorem token_of_log {t : Token} (h : .rejected t ∈ (ofScan scan).log) : t ∈ scan.tokens := by
  have hends := ends (Cursor.Within.isKept scan) (Cursor.Within.startOf scan)
  generalize ofScan scan = r at hends h
  cases hends with
  | model m hc _ => exact hc.rejected t (List.mem_reverse.mp h)
  | fault hc _ => exact hc.rejected t (List.mem_reverse.mp h)
  | @cutOff c _ hc _ =>
    rw [cutOff, endingAt, List.mem_reverse, report] at h
    refine hc.rejected t ?_
    split at h
    · simpa using h
    · exact h

/-- A reading ends on the line of a token or on the last line of the scan. -/
theorem line_cases (scan : Scan) :
    ((ofScan scan).line = scan.lastLine ∨ ∃ t ∈ scan.tokens, (ofScan scan).line = t.line) ∧
    ((∀ cause, (ofScan scan).verdict ≠ .fault cause) →
      (ofScan scan).line = scan.lastLine ∧ scan.fault? = none) := by
  have hfinished : ∀ (c : Cursor) (line : Nat), c.Within scan → c.ahead = .finished line →
      c.ahead.line = scan.lastLine ∧ scan.fault? = none := by
    intro c line hc hahead
    rw [← hc.lastLine, ← hc.fault, hahead]
    exact ⟨rfl, rfl⟩
  have hends := ends (Cursor.Within.isKept scan) (Cursor.Within.startOf scan)
  generalize ofScan scan = r at hends
  cases hends with
  | @model c line m hc hahead =>
    have hline := hfinished c line hc hahead
    exact ⟨.inl hline.1, fun _ => hline⟩
  | @cutOff c line hc hahead =>
    have hline := hfinished c line hc hahead
    exact ⟨.inl hline.1, fun _ => hline⟩
  | @fault c cause hc _ =>
    refine ⟨?_, fun h => absurd rfl (h cause)⟩
    have hlast := hc.lastLine
    cases hahead : c.ahead with
    | token t rest => exact .inr ⟨t, hc.mem_tokens hahead, congrArg Scan.line hahead⟩
    | illegal char line rest =>
      -- what is ahead is settled: illegal characters at its front are skipped already
      have hset := hc.settled
      rw [hahead] at hset
      rcases rest.settled_cases with ⟨t, rest', h⟩ | ⟨digits, line', h⟩ | ⟨line', h⟩
      · cases hset.symm.trans h
      · cases hset.symm.trans h
      · cases hset.symm.trans h
    | overlong digits line =>
      rw [hahead] at hlast
      exact .inl ((congrArg Scan.line hahead).trans hlast)
    | finished line =>
      rw [hahead] at hlast
      exact .inl ((congrArg Scan.line hahead).trans hlast)

theorem nameLines (first : Nat) (text : String) :
    Message.NameLines first text.toList (ofText first text).log := by
  have hlined := Scan.lined_ofText first text
  refine ⟨hlined.placed, ?_, fun t ht => hlined.tokens t (token_of_log ht)⟩
  rw [← hlined.illegals]
  exact illegals_of_log _

end Reading

/-- The number of newlines that are read in a text. -/
def newlinesRead (text : String) : Nat := (Reading.ofText 0 text).line

theorem newlinesBefore_le (text : List Char) (position : Nat) :
    Scan.newlinesBefore text position ≤ text.count '\n' :=
  (List.take_sublist position text).count_le '\n'

theorem newlinesRead_le (text : String) : newlinesRead text ≤ text.toList.count '\n' := by
  have hlined := Scan.lined_ofText 0 text
  rcases (Reading.line_cases (Scan.ofText 0 text)).1 with hline | ⟨t, ht, hline⟩
  · obtain ⟨n, -, hlast, -⟩ := hlined.lastLine
    rw [newlinesRead, Reading.ofText, hline, hlast, Nat.zero_add]
    exact newlinesBefore_le _ n
  · rw [newlinesRead, Reading.ofText, hline, (hlined.tokens t ht).1, Nat.zero_add]
    exact newlinesBefore_le _ _

theorem newlinesRead_eq {text : String}
    (h : ∀ cause, (Reading.ofText 0 text).verdict ≠ .fault cause) :
    newlinesRead text = text.toList.count '\n' := by
  obtain ⟨hline, hfault⟩ := (Reading.line_cases (Scan.ofText 0 text)).2 h
  obtain ⟨n, -, hlast, hend⟩ := (Scan.lined_ofText 0 text).lastLine
  rw [newlinesRead, Reading.ofText, hline, hlast, hend hfault, Nat.zero_add, Scan.newlinesBefore,
    List.take_length]

/-! ### Sessions -/

namespace Session

theorem line_read (s : Session) (text : String) :
    (s.read text).2.line = s.line + newlinesRead text := by
  have hlater := Reading.ofText_later s.line 0 text
  rw [Nat.zero_add] at hlater
  change (Reading.ofText s.line text).line = _
  rw [hlater, Nat.add_comm]
  rfl

theorem line_after (s : Session) (texts : List String) :
    (s.after texts).line = s.line + (texts.map newlinesRead).sum := by
  induction texts generalizing s with
  | nil => rfl
  | cons text texts ih =>
    rw [after, List.foldl_cons, ← after, ih, line_read, List.map_cons, List.sum_cons, Nat.add_assoc]

/-- Messages that name lines from two numbers on name none, or the numbers are the same. -/
theorem eq_of_nameLines {first first' : Nat} {text : List Char} {log : List Message}
    (h : Message.NameLines first text log) (h' : Message.NameLines first' text log)
    {m : Message} (hm : m ∈ log) (hline : m.line? ≠ none) : first = first' := by
  cases m with
  | parsed title => exact absurd rfl hline
  | cutOff => exact absurd rfl hline
  | rejected t => exact Nat.add_right_cancel ((h.rejected t hm).1.symm.trans (h'.rejected t hm).1)
  -- the first illegal character is named in both, in one place of the text
  | illegal c line =>
    have hmem : (c, line) ∈ log.filterMap Message.illegal? :=
      List.mem_filterMap.mpr ⟨_, hm, rfl⟩
    have hillegals := h.illegals
    have hillegals' := h'.illegals
    generalize log.filterMap Message.illegal? = found at hmem hillegals hillegals'
    generalize Scan.illegalPlaces 0 0 text = places at hillegals hillegals'
    cases found with
    | nil => cases hmem
    | cons x found =>
      cases places with
      | nil => simp at hillegals
      | cons p places =>
        obtain ⟨heq, -⟩ := List.cons_prefix_cons.mp hillegals
        obtain ⟨heq', -⟩ := List.cons_prefix_cons.mp hillegals'
        exact Nat.add_right_cancel (congrArg Prod.snd (heq.symm.trans heq'))

/-- **Messages name the lines of a text, moved on by the texts before it.**  The first line
    of a text has the number one, moved on by the newlines that were read in the earlier
    texts, which are all newlines of a text unless a fault ended its reading.  Every
    message names the line of its place from there on.  So a message names the line in
    its own text only if no newline was read before. -/
theorem message_lines (texts : List String) (text : String) :
    let s := after {} texts
    let log := (s.read text).1.log
    s.line = 1 + (texts.map newlinesRead).sum ∧
    (∀ earlier ∈ texts, newlinesRead earlier ≤ earlier.toList.count '\n' ∧
      ((∀ cause, (Reading.ofText 1 earlier).verdict ≠ .fault cause) →
        newlinesRead earlier = earlier.toList.count '\n')) ∧
    Message.NameLines s.line text.toList log ∧
    (Message.NameLines 1 text.toList log ↔ s.line = 1 ∨ ∀ m ∈ log, m.line? = none) := by
  intro s log
  have hlines : Message.NameLines s.line text.toList log := Reading.nameLines s.line text
  refine ⟨line_after {} texts, ?_, hlines, ?_, ?_⟩
  · intro earlier _
    refine ⟨newlinesRead_le earlier, fun hverdict => newlinesRead_eq ?_⟩
    have hlater := Reading.ofText_later 1 0 earlier
    rw [Nat.zero_add] at hlater
    rwa [hlater] at hverdict
  · intro hone
    -- one message with a line is enough, since the lines of all of them are shifted alike
    by_cases hnamed : ∃ m ∈ log, m.line? ≠ none
    · obtain ⟨m, hm, hline⟩ := hnamed
      exact .inl (eq_of_nameLines hlines hone hm hline)
    · refine .inr fun m hm => Classical.byContradiction fun hline => ?_
      exact hnamed ⟨m, hm, hline⟩
  · rintro (hone | hnone)
    · rwa [hone] at hlines
    · refine ⟨hlines.placed, ?_, fun t ht => absurd (hnone _ ht) (by simp [Message.line?])⟩
      have hempty : log.filterMap Message.illegal? = [] := by
        rw [List.filterMap_eq_nil_iff]
        intro m hm
        cases m with
        | illegal c line => cases hnone _ hm
        | _ => rfl
      rw [hempty]
      exact List.nil_prefix

end Session

end Rddl
