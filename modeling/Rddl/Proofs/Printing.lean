/-
  Rddl/Proofs/Printing.lean
  =========================
  **What the printing options add.**

  The options decide only how the log of a reading is printed.  Announcements of sections and
  pointers to a log file are lines of their own, and without them the lines are those that
  are always printed.  With a log file, a pointer stands before every report of a syntax
  error.  A text that ends too early breaks that rule: its last line is a pointer, and the
  report that belongs to it is missing (`Reading.shown_with_options`).
-/
import Rddl.Proofs.Course

namespace Rddl

/-! ### Lines -/

inductive Mark where
  | illegal | announcement | pointer | report | token
deriving DecidableEq

namespace Mark

def text : Mark → String
  | illegal => "Illegal character: "
  | announcement => ">> Parsed `"
  | pointer => "Syntax error in input! See log file: "
  | report => "Syntax error in input! Line: "
  | token => "LexToken("

def opens (mark : Mark) (line : String) : Bool := mark.text.toList.isPrefixOf line.toList

theorem opens_append (mark : Mark) (rest : String) : mark.opens (mark.text ++ rest) = true := by
  rw [opens, String.toList_append]
  exact List.isPrefixOf_iff_prefix.mpr (List.prefix_append _ _)

theorem eq_of_isPrefix {a b : Mark} (h : a.text.toList <+: b.text.toList) : a = b := by
  cases a <;> cases b <;> simp [text] at h ⊢

theorem opens_eq {a : Mark} {line : String} (ha : a.opens line = true) (b : Mark) :
    b.opens line = decide (b = a) := by
  by_cases hb : b.opens line = true
  · rcases List.prefix_or_prefix_of_prefix (List.isPrefixOf_iff_prefix.mp ha)
      (List.isPrefixOf_iff_prefix.mp hb) with h | h
    · simp [hb, eq_of_isPrefix h]
    · simp [ha, eq_of_isPrefix h]
  · have hne : b ≠ a := by
      rintro rfl
      exact hb ha
    simp [hb, hne]

end Mark

namespace Printed

/-- Whether a line is printed with any options. -/
def isPlain (line : String) : Bool := !Mark.announcement.opens line && !Mark.pointer.opens line

theorem isPlain_eq {mark : Mark} {line : String} (h : mark.opens line = true) :
    isPlain line = (mark != .announcement && mark != .pointer) := by
  rw [isPlain, Mark.opens_eq h, Mark.opens_eq h]
  cases mark <;> rfl

/-- A pointer stands directly before every report, and nowhere else. -/
inductive Paired : List String → Prop
  | nil : Paired []
  | other {l ls} : Mark.pointer.opens l = false → Mark.report.opens l = false → Paired ls →
      Paired (l :: ls)
  | pair {p r ls} : Mark.pointer.opens p = true → Mark.report.opens r = true → Paired ls →
      Paired (p :: r :: ls)

namespace Paired

theorem append {xs ys : List String} (hx : Paired xs) (hy : Paired ys) : Paired (xs ++ ys) := by
  induction hx with
  | nil => exact hy
  | other hpointer hreport _ ih => exact .other hpointer hreport ih
  | pair hpointer hreport _ ih => exact .pair hpointer hreport ih

theorem opens_getLast? {ls : List String} (h : Paired ls) :
    ∀ l ∈ ls.getLast?, Mark.pointer.opens l = false := by
  induction h with
  | nil => simp
  | @other l ls hpointer _ _ ih =>
    intro last hlast
    rw [List.getLast?_cons] at hlast
    cases htail : ls.getLast? with
    | none => simp_all
    | some last' => simp_all
  | @pair p r ls _ hreport _ ih =>
    intro last hlast
    have hpointer : Mark.pointer.opens r = false := Mark.opens_eq hreport .pointer
    rw [List.getLast?_cons, List.getLast?_cons] at hlast
    cases htail : ls.getLast? with
    | none => simp_all
    | some last' => simp_all

end Paired

end Printed

/-! ### The lines of a message -/

namespace Message

open Printed

variable {options : PrintOptions}

theorem opens_illegal (c : Char) (line : Nat) : Mark.illegal.opens
    ("Illegal character: " ++ String.ofList [c] ++ " at line " ++ toString line) = true := by
  rw [String.append_assoc, String.append_assoc]
  exact Mark.opens_append .illegal _

theorem opens_announcement (title : String) :
    Mark.announcement.opens (">> Parsed `" ++ title ++ "` ...") = true := by
  rw [String.append_assoc]
  exact Mark.opens_append .announcement _

theorem opens_report (line : Nat) : Mark.report.opens
    ("Syntax error in input! Line: " ++ toString line ++ " failed token:") = true := by
  rw [String.append_assoc]
  exact Mark.opens_append .report _

theorem opens_describe (t : Token) : Mark.token.opens t.describe = true := by
  delta Token.describe
  simp only [String.append_assoc]
  exact Mark.opens_append .token _

theorem opens_logPointer {l : String} (h : l ∈ logPointer options) :
    Mark.pointer.opens l = true := by
  rw [logPointer] at h
  split at h
  · next file _ =>
    rw [List.mem_singleton.mp h]
    exact Mark.opens_append .pointer file
  · simp at h

theorem filter_logPointer (options : PrintOptions) : (logPointer options).filter isPlain = [] := by
  apply List.filter_eq_nil_iff.mpr
  intro l hl
  rw [isPlain_eq (opens_logPointer hl)]
  exact Bool.false_ne_true

theorem filter_lines (options : PrintOptions) (m : Message) :
    (m.lines options).filter isPlain = m.lines {} := by
  cases m with
  | illegal c line => exact List.filter_cons_of_pos (isPlain_eq (opens_illegal c line))
  | parsed title =>
    rw [lines]
    split
    · exact List.filter_cons_of_neg (by rw [isPlain_eq (opens_announcement title)]; decide)
    · rfl
  | rejected t =>
    rw [lines, List.filter_append, filter_logPointer,
      List.filter_cons_of_pos (isPlain_eq (opens_report t.line)),
      List.filter_cons_of_pos (isPlain_eq (opens_describe t))]
    rfl
  | cutOff => exact filter_logPointer options

/-- Sections are announced only if that is asked for. -/
theorem opens_of_quiet (h : options.verbose = false) (m : Message) {l : String}
    (hl : l ∈ m.lines options) : Mark.announcement.opens l = false := by
  cases m with
  | illegal c line =>
    rw [List.mem_singleton.mp hl]
    exact Mark.opens_eq (opens_illegal c line) .announcement
  | parsed title => simp [lines, h] at hl
  | rejected t =>
    simp only [lines, List.mem_append, List.mem_cons, List.not_mem_nil, or_false] at hl
    rcases hl with hl | rfl | rfl
    · exact Mark.opens_eq (opens_logPointer hl) .announcement
    · exact Mark.opens_eq (opens_report t.line) .announcement
    · exact Mark.opens_eq (opens_describe t) .announcement
  | cutOff => exact Mark.opens_eq (opens_logPointer hl) .announcement

/-- Without a log file no line points to one. -/
theorem opens_of_noLog (h : options.logFile? = none) (m : Message) {l : String}
    (hl : l ∈ m.lines options) : Mark.pointer.opens l = false := by
  have hnone : logPointer options = [] := by simp [logPointer, h]
  cases m with
  | illegal c line =>
    rw [List.mem_singleton.mp hl]
    exact Mark.opens_eq (opens_illegal c line) .pointer
  | parsed title =>
    by_cases hverbose : options.verbose
    · rw [lines, if_pos hverbose] at hl
      rw [List.mem_singleton.mp hl]
      exact Mark.opens_eq (opens_announcement title) .pointer
    · simp [lines, hverbose] at hl
  | rejected t =>
    simp only [lines, hnone, List.nil_append, List.mem_cons, List.not_mem_nil, or_false] at hl
    rcases hl with rfl | rfl
    · exact Mark.opens_eq (opens_report t.line) .pointer
    · exact Mark.opens_eq (opens_describe t) .pointer
  | cutOff => simp [lines, hnone] at hl

theorem paired_lines {file : String} (h : options.logFile? = some file) {m : Message}
    (hm : m ≠ .cutOff) : Paired (m.lines options) := by
  cases m with
  | illegal c line =>
    have hopens := Mark.opens_eq (opens_illegal c line)
    exact .other (hopens .pointer) (hopens .report) .nil
  | parsed title =>
    rw [lines]
    split
    · have hopens := Mark.opens_eq (opens_announcement title)
      exact .other (hopens .pointer) (hopens .report) .nil
    · exact .nil
  | rejected t =>
    have hopens := Mark.opens_eq (opens_describe t)
    simp only [lines, logPointer, h]
    exact .pair (Mark.opens_append .pointer file) (opens_report t.line)
      (.other (hopens .pointer) (hopens .report) .nil)
  | cutOff => exact absurd rfl hm

end Message

/-! ### The lines of a reading -/

namespace Reading

open Printed

/-- What comes of a text that is read with options, and the lines that are printed. -/
def shown (options : PrintOptions) (line : Nat) (text : String) : Verdict × List String :=
  ((ofText line text).verdict, (ofText line text).log.flatMap (Message.lines options))

theorem paired_log {options : PrintOptions} {file : String} (h : options.logFile? = some file)
    {log : List Message} (hlog : .cutOff ∉ log) : Paired (log.flatMap (Message.lines options)) := by
  induction log with
  | nil => exact .nil
  | cons m log ih =>
    have hm : m ≠ .cutOff := by
      rintro rfl
      exact hlog List.mem_cons_self
    rw [List.flatMap_cons]
    exact (Message.paired_lines h hm).append (ih fun hmem => hlog (List.mem_cons_of_mem m hmem))

def Unended (c : Cursor) : Prop := .cutOff ∉ c.log

theorem unended_behind {rest : Scan} {log : List Message} (h : .cutOff ∉ log) (patience : Nat) :
    Unended (.behind rest log patience) := by
  intro hmem
  rcases List.mem_append.mp hmem with hmem | hmem
  · simpa [Message.isError] using Scan.isError_of_mem_skipped (List.mem_reverse.mp hmem)
  · exact h hmem

theorem unended_isKept : IsKept Unended where
  advance h _ := unended_behind h _
  announce title h := by simpa [Unended] using h
  restart {c t rest} h _ := by
    refine unended_behind ?_ _
    rw [report]
    split
    · intro hmem
      exact h (List.mem_of_ne_of_mem Message.noConfusion hmem)
    · exact h

theorem unended_startOf (scan : Scan) : Unended (startOf scan) := by
  have h : Unended (.behind scan [] 0) := unended_behind List.not_mem_nil 0
  rwa [Cursor.behind, List.append_nil] at h

def endFault : Fault := Datum.absent.lacks "lineno"

theorem endFault_not_interrupts : ¬endFault.Interrupts := by
  rintro (⟨key, h⟩ | ⟨digits, h⟩)
  · cases h
  · cases h

/-- The end of the text is logged last, and exactly if the reading fails there. -/
theorem log_cases (scan : Scan) :
    (.cutOff ∉ (ofScan scan).log ∧ (ofScan scan).verdict ≠ .fault endFault) ∨
      ∃ log, .cutOff ∉ log ∧ (ofScan scan).log = log ++ [.cutOff] ∧
        (ofScan scan).verdict = .fault endFault := by
  generalize hr : ofScan scan = r
  cases hr ▸ ends unended_isKept (unended_startOf scan) with
  | @model c line m hc _ =>
    left
    exact ⟨fun hmem => hc (List.mem_reverse.mp hmem), nofun⟩
  -- a fault that interrupts a reading is another one
  | @fault c cause hc hcause =>
    left
    refine ⟨fun hmem => hc (List.mem_reverse.mp hmem), ?_⟩
    intro h
    injection h with hfault
    exact endFault_not_interrupts (hfault ▸ hcause)
  | @cutOff c line hc _ =>
    by_cases hpatience : c.patience = 0
    · -- the end of the text is reported
      right
      refine ⟨c.log.reverse, fun hmem => hc (List.mem_reverse.mp hmem), ?_, ?_⟩
      · simp [cutOff, endingAt, report, hpatience]
      · simp [cutOff, endingAt, hpatience, endFault]
    · -- an error was reported shortly before, and this one is not
      left
      constructor
      · intro hmem
        refine hc (List.mem_reverse.mp ?_)
        simpa [cutOff, endingAt, report, hpatience] using hmem
      · simp [cutOff, endingAt, hpatience]

/-- **Printing options change nothing but the lines they ask for.**  With any options a text
    comes to the same, and the lines printed without any are those that are left without
    announcements and pointers.  A pointer is printed directly before every report and
    nowhere else, except where the text ends too early: then a last pointer stands alone. -/
theorem shown_with_options (line : Nat) (text : String) (options : PrintOptions) :
    Message.render options (ofText line text).log =
        String.join ((shown options line text).2.map (· ++ "\n")) ∧
      (shown options line text).1 = (shown {} line text).1 ∧
      (shown {} line text).2 = (shown options line text).2.filter isPlain ∧
      (options.verbose = false →
        ∀ l ∈ (shown options line text).2, Mark.announcement.opens l = false) ∧
      (options.logFile? = none →
        ∀ l ∈ (shown options line text).2, Mark.pointer.opens l = false) ∧
      ∀ file, options.logFile? = some file →
        (Paired (shown options line text).2 ↔
          (shown options line text).1 ≠ .fault endFault) ∧
        ((shown options line text).1 = .fault endFault →
          ∃ ls, Paired ls ∧ (shown options line text).2 = ls ++ [Mark.pointer.text ++ file]) := by
  refine ⟨rfl, rfl, ?_, ?_, ?_, ?_⟩
  · simp only [shown, List.filter_flatMap, Message.filter_lines]
  · intro hverbose l hl
    obtain ⟨m, -, hm⟩ := List.mem_flatMap.mp hl
    exact Message.opens_of_quiet hverbose m hm
  · intro hnone l hl
    obtain ⟨m, -, hm⟩ := List.mem_flatMap.mp hl
    exact Message.opens_of_noLog hnone m hm
  · intro file hfile
    -- at the end of the text only the pointer is printed, with no line to pair it with
    rcases log_cases (.ofText line text) with ⟨hlog, hverdict⟩ | ⟨log, hlog, heq, hverdict⟩
    · constructor
      · exact ⟨fun _ => hverdict, fun _ => paired_log hfile hlog⟩
      · intro hfault
        exact absurd hfault hverdict
    · have hlines : (shown options line text).2 =
          log.flatMap (Message.lines options) ++ [Mark.pointer.text ++ file] := by
        have hlast : Message.lines options .cutOff = [Mark.pointer.text ++ file] := by
          simp only [Message.lines, Message.logPointer, hfile, Mark.text]
        rw [shown, ofText, heq, List.flatMap_append, List.flatMap_singleton, hlast]
      constructor
      · constructor
        · intro hpaired
          have hopens := hpaired.opens_getLast? (Mark.pointer.text ++ file) (by simp [hlines])
          simp [Mark.opens_append] at hopens
        · intro hne
          exact absurd hverdict hne
      · intro _
        exact ⟨_, paired_log hfile hlog, hlines⟩

end Reading

end Rddl
