/-
  Rddl/Proofs/Session.lean
  ========================
  **A session that has read other texts before.**

  All that one reading leaves to the next is the count of lines.  A scan that starts some
  lines later is the same scan with its lines moved on (`Scan.walk_later`), and so is
  everything made from it: no basic step of a reader looks at a line, so neither does any
  reader put together from them (`Reader.Scripted.run_later`), and the recovery from errors
  keeps the lines moved on at every start (`Reading.run_later`).
-/
import Rddl.Proofs.Reading
import Rddl.Session

namespace Rddl

/-! ### Lines moved on -/

def Token.later (k : Nat) (t : Token) : Token := { t with line := t.line + k }

def Message.later (k : Nat) : Message → Message
  | .illegal c line => .illegal c (line + k)
  | .parsed title => .parsed title
  | .rejected t => .rejected (t.later k)
  | .cutOff => .cutOff

def Scan.later (k : Nat) : Scan → Scan
  | .token t rest => .token (t.later k) (rest.later k)
  | .illegal c line rest => .illegal c (line + k) (rest.later k)
  | .overlong digits line => .overlong digits (line + k)
  | .finished line => .finished (line + k)

def Cursor.later (k : Nat) (c : Cursor) : Cursor :=
  ⟨c.ahead.later k, c.log.map (Message.later k), c.patience⟩

def Cursor.laterResult {α : Type} (k : Nat) :
    EStateM.Result Stop Cursor α → EStateM.Result Stop Cursor α
  | .ok a c => .ok a (c.later k)
  | .error s c => .error s (c.later k)

/-- The reading of a text that starts some lines later: what came of it is the same. -/
def Reading.later (k : Nat) (r : Reading) : Reading :=
  ⟨r.verdict, r.log.map (Message.later k), r.line + k⟩

/-! ### Scans -/

namespace Scan

variable (k : Nat)

theorem walk_later (skip line position : Nat) (cs : List Char) :
    Scan.walk skip (line + k) position cs = (Scan.walk skip line position cs).later k := by
  induction cs generalizing skip line position with
  | nil => rfl
  | cons c cs ih =>
    cases skip with
    | succ skip => exact ih skip line (position + 1)
    | zero =>
      simp only [walk]
      cases Front.of c cs with
      | blank => exact ih 0 line (position + 1)
      | newline => rw [← ih, Nat.add_right_comm]
      | comment length => exact ih (length - 1) line (position + 1)
      | lexeme value length =>
        exact congrArg (Scan.token _) (ih (length - 1) line (position + 1))
      | overlong digits => rfl
      | illegal => exact congrArg (Scan.illegal c (line + k)) (ih 0 line (position + 1))

theorem settled_later (s : Scan) : (s.later k).settled = s.settled.later k := by
  have hsame : (s.settled.later k).settled = (s.later k).settled :=
    apply_settled (fun s => (s.later k).settled) (fun _ _ _ => rfl) s
  rcases s.settled_cases with ⟨t, rest, h⟩ | ⟨digits, line, h⟩ | ⟨line, h⟩ <;>
    rw [← hsame, h] <;> rfl

theorem skipped_later (s : Scan) : (s.later k).skipped = s.skipped.map (Message.later k) := by
  induction s with
  | illegal c line rest ih =>
    rw [later, skipped, ih]
    rfl
  | token t rest ih => rfl
  | overlong digits line => rfl
  | finished line => rfl

theorem tokens_later (s : Scan) : (s.later k).tokens = s.tokens.map (Token.later k) := by
  induction s with
  | token t rest ih =>
    rw [later, tokens, ih]
    rfl
  | illegal c line rest ih => exact ih
  | overlong digits line => rfl
  | finished line => rfl

theorem size_later (s : Scan) : (s.later k).size = s.size := by
  rw [size, tokens_later, List.length_map, size]

theorem line_later (s : Scan) : (s.later k).line = s.line + k := by
  cases s <;> rfl

end Scan

/-! ### Readers -/

namespace Reader

open Cursor

variable (k : Nat)

theorem enter_later (scan : Scan) (log : List Message) (patience : Nat) (c : Cursor) :
    enter (scan.later k) (log.map (Message.later k)) patience (c.later k) =
      laterResult k (enter scan log patience c) := by
  rw [enter_run, enter_run, Scan.settled_later, Scan.skipped_later]
  have hlog : (scan.skipped.map (Message.later k)).reverse ++ log.map (Message.later k) =
      (scan.skipped.reverse ++ log).map (Message.later k) := by simp
  rw [hlog]
  cases scan.settled <;> rfl

theorem next?_later (c : Cursor) : (c.later k).next? = c.next? := by
  obtain ⟨ahead, log, patience⟩ := c
  cases ahead <;> rfl

theorem advance_later (c : Cursor) : advance (c.later k) = laterResult k (advance c) := by
  rw [advance_run, advance_run]
  obtain ⟨ahead, log, patience⟩ := c
  cases ahead with
  | token t rest => exact enter_later k rest log (patience - 1) _
  | illegal char line rest => rfl
  | overlong digits line => rfl
  | finished line => rfl

/-- **A reader does the same some lines later.** -/
theorem Scripted.run_later {α : Type} {r : Reader α} (hr : Scripted r) (c : Cursor) :
    r (c.later k) = laterResult k (r c) := by
  induction hr generalizing c with
  -- only what is taken has a line; the other steps do not look at it
  | pure a => rfl
  | stop _ => rfl
  | peek =>
    rw [peek_run, peek_run, next?_later]
    rfl
  | advance => exact advance_later k c
  | bound =>
    change EStateM.Result.ok (2 * (c.ahead.later k).size + 2) _ = _
    rw [Scan.size_later]
    rfl
  | announce title => rfl
  -- the second step starts where the first ends, some lines later
  | bind hr hf ihr ihf =>
    rename_i r f
    cases h : r c with
    | ok a c' =>
      have hlater : r (c.later k) = .ok a (c'.later k) := by rw [ihr, h]; rfl
      rw [bind_run_ok hlater, bind_run_ok h, ihf]
    | error s c' =>
      have hlater : r (c.later k) = .error s (c'.later k) := by rw [ihr, h]; rfl
      rw [bind_run_error hlater, bind_run_error h]
      rfl

end Reader

/-! ### Readings -/

namespace Reading

variable (k : Nat)

theorem endingAt_later (c : Cursor) (verdict : Verdict) :
    endingAt (c.later k) verdict = (endingAt c verdict).later k := by
  simp only [endingAt, Cursor.later, later, Scan.line_later, List.map_reverse]

theorem report_later (c : Cursor) (m : Message) :
    report (c.later k) (m.later k) = (report c m).map (Message.later k) := by
  by_cases hpatience : c.patience = 0
  · simp [report, Cursor.later, hpatience]
  · simp [report, Cursor.later, hpatience]

theorem cutOff_later (c : Cursor) : cutOff (c.later k) = (cutOff c).later k := by
  have hreport : report (c.later k) .cutOff = (report c .cutOff).map (Message.later k) :=
    report_later k c .cutOff
  rw [cutOff, hreport]
  exact endingAt_later k { c with log := report c .cutOff } _

theorem run_later (n : Nat) (c : Cursor) : run n (c.later k) = (run n c).later k := by
  induction n generalizing c with
  | zero => exact cutOff_later k c
  | succ n ih =>
    rw [run, run, Reader.model_scripted.run_later]
    cases Reader.model c with
    | ok m c₁ => exact endingAt_later k c₁ (.model m)
    | error s c₁ =>
      cases s with
      | fault cause => exact endingAt_later k c₁ (.fault cause)
      | unexpected =>
        obtain ⟨ahead, log, patience⟩ := c₁
        cases ahead with
        | token t rest =>
          -- reading starts anew behind the token, again some lines later
          have henter := Reader.enter_later k rest (report ⟨.token t rest, log, patience⟩
            (.rejected t)) Reading.patience ⟨.token t rest, log, patience⟩
          rw [← report_later] at henter
          simp only [Cursor.laterResult, Cursor.later, Scan.later, Message.later] at henter ⊢
          rw [henter]
          cases Reader.enter rest (report ⟨.token t rest, log, patience⟩ (.rejected t))
              Reading.patience ⟨.token t rest, log, patience⟩ with
          | ok u c₂ => exact ih c₂
          | error s c₂ =>
            cases s with
            | fault cause => exact endingAt_later k c₂ (.fault cause)
            | unexpected => exact cutOff_later k c₂
        | illegal char line rest => exact cutOff_later k _
        | overlong digits line => exact cutOff_later k _
        | finished line => exact cutOff_later k _

theorem ofScan_later (scan : Scan) : ofScan (scan.later k) = (ofScan scan).later k := by
  have henter := Reader.enter_later k scan [] 0 ⟨scan, [], 0⟩
  simp only [List.map_nil, Cursor.later] at henter
  rw [ofScan, ofScan, henter, Scan.size_later]
  cases Reader.enter scan [] 0 ⟨scan, [], 0⟩ with
  | ok u c => exact run_later k _ c
  | error s c =>
    cases s with
    | fault cause => exact endingAt_later k c (.fault cause)
    | unexpected => exact cutOff_later k c

/-- **A text that starts some lines later is read as it is, with the lines moved on.** -/
theorem ofText_later (line : Nat) (text : String) :
    ofText (line + k) text = (ofText line text).later k := by
  rw [ofText, ofText, Scan.ofText, Scan.walk_later, ofScan_later]
  rfl

end Reading

/-! ### Sessions -/

namespace Session

/-- The session after it has read some texts, one after another. -/
def after (s : Session) (texts : List String) : Session :=
  texts.foldl (fun s text => (s.read text).2) s

theorem current?_read (s : Session) (text : String) :
    (s.read text).2.current? = (s.read text).1.verdict.model?.map fun m => (m, {}) := by
  simp only [read, hold]
  cases (Reading.ofText s.line text).verdict <;> rfl

theorem one_le_line_read {s : Session} (h : 1 ≤ s.line) (text : String) :
    1 ≤ (s.read text).2.line := by
  have hline : (s.read text).2.line = (Reading.ofText (0 + s.line) text).line := by
    rw [Nat.zero_add]
    rfl
  rw [hline, Reading.ofText_later]
  exact Nat.le_trans h (Nat.le_add_left _ _)

theorem one_le_line_after {s : Session} (h : 1 ≤ s.line) (texts : List String) :
    1 ≤ (s.after texts).line := by
  induction texts generalizing s with
  | nil => exact h
  | cons text texts ih => exact ih (one_le_line_read h text)

/-- **What a session has read before does not matter.**  Whatever texts a session has read,
    whether they gave a model, nothing or a fault, the next text comes to the same as in a
    new session.  All that is printed is the same, too, but that its lines are moved on by
    the lines that were counted before. -/
theorem read_after_history (texts : List String) (text : String) :
    let used := after {} texts
    let fresh : Session := {}
    1 ≤ used.line ∧
      (used.read text).1.verdict = (fresh.read text).1.verdict ∧
      (used.read text).1.log = (fresh.read text).1.log.map (Message.later (used.line - 1)) ∧
      (∀ options, Message.render options (used.read text).1.log =
        Message.render options ((fresh.read text).1.log.map (Message.later (used.line - 1)))) ∧
      (used.read text).2.current? = (fresh.read text).2.current? ∧
      (used.read text).2.line = (fresh.read text).2.line + (used.line - 1) := by
  intro used fresh
  have hline : 1 ≤ used.line := one_le_line_after (Nat.le_refl 1) texts
  -- reading from a later line is reading from the first one, with all lines shifted
  have hlater : (used.read text).1 = ((fresh.read text).1).later (used.line - 1) := by
    have hsplit : used.line = 1 + (used.line - 1) := by omega
    have hread := Reading.ofText_later (used.line - 1) 1 text
    rwa [← hsplit] at hread
  have hlog : (used.read text).1.log =
      (fresh.read text).1.log.map (Message.later (used.line - 1)) := by
    rw [hlater]
    rfl
  have hverdict : (used.read text).1.verdict = (fresh.read text).1.verdict := by
    rw [hlater]
    rfl
  refine ⟨hline, hverdict, hlog, ?_, ?_, ?_⟩
  · intro options
    rw [hlog]
  · rw [current?_read, current?_read, hverdict]
  · change (used.read text).1.line = _
    rw [hlater]
    rfl

end Session

end Rddl
