/-
  Rddl/Proofs/Recovery.lean
  =========================
  **Reading on after an error.**

  A reading that starts anew behind a token that it has dropped keeps its log and nothing
  else.  So its model is read wholly from what stands behind the last dropped token, and is
  what a reading of that part alone would give (`Reading.model_behind_dropped`).
-/
import Rddl.Proofs.Outcome

namespace Rddl.Reading

/-! ### Dropped tokens -/

/-- The tokens that are dropped in reading from a place on, each with what stands behind
    it. -/
def droppedFrom : Nat → Cursor → List (Token × Scan)
  | 0, _ => []
  | n + 1, c =>
    match Reader.model c with
    | .error .unexpected c =>
      match c.ahead with
      | .token t rest =>
        (t, rest) ::
          match Reader.enter rest (report c (.rejected t)) patience c with
          | .ok _ c => droppedFrom n c
          | .error .. => []
      | _ => []
    | _ => []

def dropped (scan : Scan) : List (Token × Scan) := droppedFrom (scan.size + 1) (startOf scan)

variable {n : Nat} {c c₁ c₂ : Cursor} {m : Model} {t : Token} {rest : Scan}

theorem droppedFrom_of_ok {c' : Cursor} (h : Reader.model c = .ok m c') :
    droppedFrom n c = [] := by
  cases n with
  | zero => rfl
  | succ n => simp only [droppedFrom, h]

/-! ### One start anew -/

section Restart

variable (hmodel : Reader.model c = .error .unexpected c₁) (hahead : c₁.ahead = .token t rest)
  (henter : Reader.enter rest (report c₁ (.rejected t)) patience c₁ = .ok () c₂)
include hmodel hahead henter

theorem droppedFrom_of_restart : droppedFrom (n + 1) c = (t, rest) :: droppedFrom n c₂ := by
  simp only [droppedFrom, hmodel, hahead, henter]

/-- The tokens that were taken are given up together with the dropped one. -/
theorem tokens_of_restart : ∃ taken, c.ahead.tokens = taken ++ t :: rest.tokens ∧
    c₂.ahead.tokens = rest.tokens := by
  obtain ⟨taken, htaken⟩ := (Reader.model_scripted.passes_of_error hmodel).tokens
  rw [hahead, Scan.tokens] at htaken
  obtain ⟨-, rfl⟩ := Reader.enter_eq_ok.mp henter
  exact ⟨taken, htaken.symm, Scan.tokens_settled rest⟩

omit hahead in
/-- The dropped token is the only one about which an error can be reported. -/
theorem error_of_restart {e : Message} (he : e ∈ c₂.log) (herror : e.isError = true) :
    e = .rejected t ∨ e ∈ c.log := by
  obtain ⟨new, hlog, hnew⟩ := (Reader.model_scripted.passes_of_error hmodel).log
  have hreport : e ∈ report c₁ (.rejected t) → e = .rejected t ∨ e ∈ c₁.log := by
    intro hmem
    rw [report] at hmem
    split at hmem
    · exact List.mem_cons.mp hmem
    · exact .inr hmem
  obtain ⟨-, rfl⟩ := Reader.enter_eq_ok.mp henter
  rw [List.mem_append, List.mem_reverse] at he
  rcases he with hskipped | he
  · simp [Scan.isError_of_mem_skipped hskipped] at herror
  · rcases hreport he with heq | hmem
    · exact .inl heq
    · rw [hlog, List.mem_append] at hmem
      rcases hmem with hmem | hmem
      · simp [hnew e hmem] at herror
      · exact .inr hmem

end Restart

/-! ### One start after another -/

/-- What is ahead at the last start: all of it, or what stands behind the last dropped
    token. -/
theorem exists_lastStart (h : (run n c).verdict = .model m) (hset : c.Settled) :
    ∃ c₁ c', Reader.model c₁ = .ok m c' ∧ c₁.Settled ∧
      c₁.ahead = match (droppedFrom n c).getLast? with
        | none => c.ahead
        | some (_, rest) => rest.settled := by
  induction n generalizing c with
  | zero => exact absurd h cutOff_verdict_ne_model
  | succ n ih =>
    rcases run_cases h with ⟨c', hmodel, -⟩ | ⟨c₁, c₂, t, rest, hmodel, hahead, henter, hrun⟩
    · refine ⟨c, c', hmodel, hset, ?_⟩
      rw [droppedFrom_of_ok hmodel]
      rfl
    · obtain ⟨c₃, c', hmodel', hset', hstart⟩ := ih (hrun ▸ h) (settled_of_enter henter)
      refine ⟨c₃, c', hmodel', hset', ?_⟩
      rw [hstart, droppedFrom_of_restart hmodel hahead henter, List.getLast?_cons]
      obtain ⟨-, rfl⟩ := Reader.enter_eq_ok.mp henter
      cases (droppedFrom n _).getLast? <;> rfl

/-- Dropped tokens stand in the text, none of them behind the last. -/
theorem exists_before (h : (run n c).verdict = .model m)
    (hlast : (droppedFrom n c).getLast? = some (t, rest)) :
    ∃ before, c.ahead.tokens = before ++ t :: rest.tokens ∧
      ∀ p ∈ droppedFrom n c, p.1 ∈ before ++ [t] := by
  induction n generalizing c with
  | zero => cases hlast
  | succ n ih =>
    rcases run_cases h with ⟨c', hmodel, -⟩ | ⟨c₁, c₂, t₁, rest₁, hmodel, hahead, henter, hrun⟩
    · rw [droppedFrom_of_ok hmodel] at hlast
      cases hlast
    · obtain ⟨taken, htaken, hbehind⟩ := tokens_of_restart hmodel hahead henter
      rw [droppedFrom_of_restart hmodel hahead henter] at hlast ⊢
      -- this restart is the last one, or there is another behind it
      cases hdropped : (droppedFrom n c₂).getLast? with
      | none =>
        rw [List.getLast?_cons, hdropped] at hlast
        cases hlast
        refine ⟨taken, htaken, ?_⟩
        simp [List.getLast?_eq_none_iff.mp hdropped]
      | some last =>
        rw [List.getLast?_cons, hdropped] at hlast
        cases hlast
        obtain ⟨before, hbefore, hmem⟩ := ih (hrun ▸ h) hdropped
        refine ⟨taken ++ t₁ :: before, ?_, ?_⟩
        · rw [htaken, ← hbehind, hbefore]
          simp
        · intro p hp
          rcases List.mem_cons.mp hp with rfl | hp
          · simp
          · rw [List.append_assoc, List.cons_append]
            exact List.mem_append_right _ (List.mem_cons_of_mem _ (hmem p hp))

/-- An error that is reported is about a dropped token. -/
theorem exists_dropped_of_error (h : (run n c).verdict = .model m) {e : Message}
    (he : e ∈ (run n c).log) (herror : e.isError = true) :
    e ∈ c.log ∨ ∃ p ∈ droppedFrom n c, e = .rejected p.1 := by
  induction n generalizing c with
  | zero => exact absurd h cutOff_verdict_ne_model
  | succ n ih =>
    rcases run_cases h with ⟨c', hmodel, hrun⟩ | ⟨c₁, c₂, t, rest, hmodel, hahead, henter, hrun⟩
    · obtain ⟨new, hlog, hnew⟩ := (Reader.model_scripted.passes_of_ok hmodel).log
      rw [hrun, endingAt, List.mem_reverse, hlog, List.mem_append] at he
      rcases he with he | he
      · simp [hnew e he] at herror
      · exact .inl he
    · rw [droppedFrom_of_restart hmodel hahead henter]
      rcases ih (hrun ▸ h) (hrun ▸ he) with hmem | ⟨p, hp, heq⟩
      · rcases error_of_restart hmodel henter hmem herror with heq | hmem
        · exact .inr ⟨(t, rest), List.mem_cons_self, heq⟩
        · exact .inl hmem
      · exact .inr ⟨p, List.mem_cons_of_mem _ hp, heq⟩

/-! ### Whole texts -/

section Scans

variable {scan : Scan}

theorem exists_dropped_of_mem_log (h : (ofScan scan).verdict = .model m) {e : Message}
    (he : e ∈ (ofScan scan).log) (herror : e.isError = true) :
    ∃ p ∈ dropped scan, e = .rejected p.1 := by
  obtain ⟨hrun, -⟩ := ofScan_cases h
  rw [hrun] at h he
  rcases exists_dropped_of_error h he herror with hmem | hmem
  · rw [startOf, List.mem_reverse] at hmem
    simp [Scan.isError_of_mem_skipped hmem] at herror
  · exact hmem

/-- Where an error is reported, a token is dropped. -/
theorem exists_last_dropped (h : (ofScan scan).verdict = .model m)
    (herror : ¬(ofScan scan).Clean) : ∃ t rest, (dropped scan).getLast? = some (t, rest) := by
  cases hlast : (dropped scan).getLast? with
  | some last => exact ⟨last.1, last.2, rfl⟩
  | none =>
    refine absurd ?_ herror
    intro e he
    cases hisError : e.isError with
    | false => rfl
    | true =>
      obtain ⟨p, hp, -⟩ := exists_dropped_of_mem_log h he hisError
      rw [List.getLast?_eq_none_iff.mp hlast] at hp
      cases hp

theorem tokens_of_last_dropped (h : (ofScan scan).verdict = .model m)
    (hlast : (dropped scan).getLast? = some (t, rest)) :
    ∃ before, scan.tokens = before ++ t :: rest.tokens ∧
      ∀ p ∈ dropped scan, p.1 ∈ before ++ [t] := by
  obtain ⟨hrun, -⟩ := ofScan_cases h
  rw [hrun] at h
  obtain ⟨before, hbefore, hmem⟩ := exists_before h hlast
  rw [startOf, Scan.tokens_settled] at hbefore
  exact ⟨before, hbefore, hmem⟩

/-- What stands behind the last dropped token spells a document with the model. -/
theorem spelled_behind_dropped (h : (ofScan scan).verdict = .model m)
    (hlast : (dropped scan).getLast? = some (t, rest)) :
    ∃ d : Document, d.IsSpelledBy rest ∧ d.model = .ok m := by
  obtain ⟨hrun, hset⟩ := ofScan_cases h
  rw [hrun] at h
  obtain ⟨c, c', hmodel, hset', hstart⟩ := exists_lastStart h hset
  rw [← dropped, hlast] at hstart
  obtain ⟨d, hwritten, hshape, hd, hfault⟩ := exists_wellShaped_of_model hset' hmodel
  refine ⟨d, ⟨?_, hshape, ?_⟩, hd⟩
  · rwa [Cursor.lexemes, hstart, Scan.lexemes_settled] at hwritten
  · rwa [hstart, Scan.fault?_settled] at hfault

end Scans

/-- **Nothing from before an error is in a model.**  If a syntax error is reported and there
    is a model all the same, then there is a last token that was dropped, and no reported
    error stands behind it.  What does stand behind it, read alone, gives the same model
    without a syntax error: it spells a document, and the model has the last block of each
    kind in that document. -/
theorem model_behind_dropped {line : Nat} {text : String}
    (h : (ofText line text).verdict = .model m) (herror : ¬(ofText line text).Clean) :
    ∃ before t rest, (dropped (Scan.ofText line text)).getLast? = some (t, rest) ∧
      (Scan.ofText line text).tokens = before ++ t :: rest.tokens ∧
      (∀ e ∈ (ofText line text).log, e.isError = true → ∃ t' ∈ before ++ [t], e = .rejected t') ∧
      (ofScan rest).verdict = .model m ∧ (ofScan rest).Clean ∧
      ∃ d : Document, d.IsSpelledBy rest ∧ ∃ b n i, d.last? "domain" = some (.domain b) ∧
        d.last? "non_fluents" = some (.nonFluents n) ∧ d.last? "instance" = some (.problem i) ∧
        m.IsOf b n i := by
  obtain ⟨t, rest, hlast⟩ := exists_last_dropped h herror
  obtain ⟨before, hbefore, hmem⟩ := tokens_of_last_dropped h hlast
  obtain ⟨d, hspelled, hd⟩ := spelled_behind_dropped h hlast
  obtain ⟨hverdict, hclean⟩ := verdict_of_spelled hspelled
  rw [hd] at hverdict
  refine ⟨before, t, rest, hlast, hbefore, ?_, hverdict, hclean, d, hspelled,
    Document.isOf_of_model hd⟩
  intro e he hisError
  obtain ⟨p, hp, rfl⟩ := exists_dropped_of_mem_log h he hisError
  exact ⟨p.1, hmem p hp, rfl⟩

/-- A text with two tokens out of place, a domain and non-fluents before the first of them,
    an instance before the second, and a whole document behind. -/
def brokenText : String := "domain a \x7b pvariables \x7b \x7d; cpfs \x7b \x7d; reward = 1; \x7d
  non-fluents n \x7b \x7d ) instance i \x7b \x7d ;
  domain b \x7b pvariables \x7b \x7d; cpfs \x7b \x7d; reward = 2; \x7d
  non-fluents m \x7b \x7d instance j \x7b \x7d"

theorem model_of_brokenText :
    ∃ m, (ofText 1 brokenText).verdict = .model m ∧ ¬(ofText 1 brokenText).Clean ∧
      m.domain.name.isText "b" = true ∧
      (dropped (Scan.ofText 1 brokenText)).map (fun p => p.1.lexeme) =
        [.symbol .rightParen, .symbol .semicolon] ∧
      ∃ before t rest, (dropped (Scan.ofText 1 brokenText)).getLast? = some (t, rest) ∧
        (Scan.ofText 1 brokenText).tokens = before ++ t :: rest.tokens ∧
        (ofScan rest).verdict = .model m ∧ (ofScan rest).Clean := by
  have hread : ((ofText 1 brokenText).verdict.model?.map fun m => m.domain.name.isText "b") =
      some true := by
    rw [brokenText, ofText_eq_ofScan 1 rfl]
    decide +kernel
  have herror : (ofText 1 brokenText).log.any Message.isError = true := by
    rw [brokenText, ofText_eq_ofScan 1 rfl]
    decide +kernel
  have hdropped : (dropped (Scan.ofText 1 brokenText)).map (fun p => p.1.lexeme) =
      [.symbol .rightParen, .symbol .semicolon] := by
    rw [brokenText, scan_eq_walk 1 rfl]
    decide +kernel
  -- an error is logged
  have hunclean : ¬(ofText 1 brokenText).Clean := by
    intro hclean
    obtain ⟨e, he, hisError⟩ := List.any_eq_true.mp herror
    exact absurd hisError (by simp [hclean e he])
  obtain ⟨m, hmodel, hname⟩ := Option.map_eq_some_iff.mp hread
  have hverdict := Verdict.eq_model_of_model? hmodel
  obtain ⟨before, t, rest, hlast, htokens, -, hrest, hclean, -⟩ :=
    model_behind_dropped hverdict hunclean
  exact ⟨m, hverdict, hunclean, hname, hdropped, before, t, rest, hlast, htokens, hrest, hclean⟩

end Rddl.Reading
