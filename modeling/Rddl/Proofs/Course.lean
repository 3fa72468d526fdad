/-
  Rddl/Proofs/Course.lean
  =======================
  **The course of a reading.**

  What every step of a reader keeps holds wherever a run of it stops
  (`Reader.Scripted.keeps`).  What the start anew behind a dropped token keeps, too, holds
  at the end of a reading, which comes about in one of three ways: all is read, a fault
  interrupts it, or the text ends too early (`Reading.ends`).
-/
import Rddl.Proofs.Reading

namespace Rddl

def Fault.Interrupts (cause : Fault) : Prop :=
  (∃ key, cause = .missingKey key) ∨ ∃ digits, cause = .overlongInteger digits

namespace Cursor

def behind (rest : Scan) (log : List Message) (patience : Nat) : Cursor :=
  ⟨rest.settled, rest.skipped.reverse ++ log, patience⟩

/-- What every step of a reader keeps. -/
structure IsKept (P : Cursor → Prop) : Prop where
  advance : ∀ {c : Cursor} {t : Token} {rest : Scan}, P c → c.ahead = .token t rest →
    P (behind rest c.log (c.patience - 1))
  announce : ∀ {c : Cursor} (title : String), P c → P { c with log := .parsed title :: c.log }

/-- What holds of the place where a run of a reader stops, and of the cause if it fails. -/
def StopsIn {α : Type} (P : Cursor → Prop) : EStateM.Result Stop Cursor α → Prop
  | .ok _ c => P c ∧ c.Settled
  | .error .unexpected c => P c ∧ c.Settled
  | .error (.fault cause) c => P c ∧ cause.Interrupts

theorem stopsIn_enter {P : Cursor → Prop} {rest : Scan} {log : List Message} {patience : Nat}
    (h : P (behind rest log patience)) (c : Cursor) :
    StopsIn P (Reader.enter rest log patience c) := by
  rw [behind] at h
  rw [Reader.enter_run]
  rcases rest.settled_cases with ⟨t, rest', hset⟩ | ⟨digits, line, hset⟩ | ⟨line, hset⟩
  · rw [hset] at h ⊢
    exact ⟨h, .inl ⟨t, rest', rfl⟩⟩
  · rw [hset] at h ⊢
    exact ⟨h, .inr ⟨digits, rfl⟩⟩
  · rw [hset] at h ⊢
    exact ⟨h, .inr ⟨line, rfl⟩⟩

end Cursor

open Cursor

/-- **A run of a reader keeps what its steps keep.** -/
theorem Reader.Scripted.keeps {P : Cursor → Prop} (hP : IsKept P) {α : Type} {r : Reader α}
    (hr : Scripted r) {c : Cursor} (hc : P c) (hset : c.Settled) : StopsIn P (r c) := by
  induction hr generalizing c with
  | pure a => exact ⟨hc, hset⟩
  | @stop _ s hs =>
    cases s with
    | unexpected => exact ⟨hc, hset⟩
    | fault cause => exact ⟨hc, .inl hs⟩
  | peek =>
    rw [peek_run]
    exact ⟨hc, hset⟩
  | advance =>
    rw [advance_run]
    split
    · next hahead => exact stopsIn_enter (hP.advance hc hahead) c
    · exact ⟨hc, hset⟩
  | bound => exact ⟨hc, hset⟩
  | announce title => exact ⟨hP.announce title hc, hset⟩
  | @bind _ _ r f hr hf ihr ihf =>
    -- where the first reader stops, the second one starts with what was kept
    have hfirst := ihr hc hset
    cases hrun : r c with
    | ok a c₁ =>
      rw [hrun] at hfirst
      rw [bind_run_ok hrun]
      exact ihf a hfirst.1 hfirst.2
    | error s c₁ =>
      rw [hrun] at hfirst
      rw [bind_run_error hrun]
      cases s with
      | unexpected => exact hfirst
      | fault cause => exact hfirst

namespace Reading

structure IsKept (P : Cursor → Prop) : Prop extends Cursor.IsKept P where
  restart : ∀ {c : Cursor} {t : Token} {rest : Scan}, P c → c.ahead = .token t rest →
    P (behind rest (report c (.rejected t)) patience)

/-- The ways in which a reading ends, at a place with a property. -/
inductive EndsIn (P : Cursor → Prop) : Reading → Prop
  | model {c : Cursor} {line : Nat} (m : Model) : P c → c.ahead = .finished line →
      EndsIn P (endingAt c (.model m))
  | fault {c : Cursor} {cause : Fault} : P c → cause.Interrupts →
      EndsIn P (endingAt c (.fault cause))
  | cutOff {c : Cursor} {line : Nat} : P c → c.ahead = .finished line → EndsIn P (cutOff c)

theorem finished_of_model {c c' : Cursor} {m : Model} (h : Reader.model c = .ok m c')
    (hset : c'.Settled) : ∃ line, c'.ahead = .finished line := by
  obtain ⟨n, d, hblocks, -⟩ := Reader.exists_blocks_of_model h
  obtain ⟨-, -, -, hnext⟩ := Reader.blocks_takes n hblocks
  rcases hset with ⟨t, rest, hahead⟩ | hfinished
  · simp [Cursor.next?, hahead] at hnext
  · exact hfinished

theorem enter_ne_unexpected {scan : Scan} {log : List Message} {patience : Nat} {c c' : Cursor} :
    Reader.enter scan log patience c ≠ .error .unexpected c' := by
  rw [Reader.enter_run]
  cases scan.settled <;> simp

variable {P : Cursor → Prop}

theorem run_ends (hP : IsKept P) {n : Nat} {c : Cursor} (hc : P c) (hset : c.Settled)
    (hn : c.ahead.size < n) : EndsIn P (run n c) := by
  induction n generalizing c with
  | zero => exact absurd hn (Nat.not_lt_zero _)
  | succ n ih =>
    have hstops := Reader.model_scripted.keeps hP.toIsKept hc hset
    rw [run]
    cases hmodel : Reader.model c with
    | ok m c₁ =>
      rw [hmodel] at hstops
      obtain ⟨line, hahead⟩ := finished_of_model hmodel hstops.2
      exact .model m hstops.1 hahead
    | error s c₁ =>
      rw [hmodel] at hstops
      cases s with
      | fault cause => exact .fault hstops.1 hstops.2
      | unexpected =>
        obtain ⟨hc₁, ⟨t, rest, hahead⟩ | ⟨line, hahead⟩⟩ := hstops
        · -- the token is dropped, so less is ahead at the next start
          have hless : rest.settled.size < n := by
            have hpasses := (Reader.model_scripted.passes_of_error hmodel).tokens.length_le
            rw [hahead] at hpasses
            simp only [Scan.tokens, List.length_cons] at hpasses
            simp only [Scan.size, Scan.tokens_settled] at hn ⊢
            omega
          have hnext := stopsIn_enter (hP.restart hc₁ hahead) c₁
          simp only [hahead]
          cases henter : Reader.enter rest (report c₁ (.rejected t)) patience c₁ with
          | ok u c₂ =>
            rw [henter] at hnext
            obtain ⟨-, rfl⟩ := Reader.enter_eq_ok.mp henter
            exact ih hnext.1 hnext.2 hless
          | error s c₂ =>
            rw [henter] at hnext
            cases s with
            | fault cause => exact .fault hnext.1 hnext.2
            | unexpected => exact absurd henter enter_ne_unexpected
        · simp only [hahead]
          exact .cutOff hc₁ hahead

/-- **A reading ends with what its steps keep.** -/
theorem ends (hP : IsKept P) {scan : Scan} (hstart : P (startOf scan)) :
    EndsIn P (ofScan scan) := by
  have hbehind : P (behind scan [] 0) := by
    rwa [behind, List.append_nil]
  have hstops := stopsIn_enter hbehind ⟨scan, [], 0⟩
  rw [ofScan]
  cases henter : Reader.enter scan [] 0 ⟨scan, [], 0⟩ with
  | ok u c =>
    rw [henter] at hstops
    refine run_ends hP hstops.1 hstops.2 ?_
    obtain ⟨-, rfl⟩ := Reader.enter_eq_ok.mp henter
    simp [Scan.size]
  | error s c =>
    rw [henter] at hstops
    cases s with
    | fault cause => exact .fault hstops.1 hstops.2
    | unexpected => exact absurd henter enter_ne_unexpected

end Reading

end Rddl
