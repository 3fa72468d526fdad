/-
  Rddl/Proofs/Reading.lean
  ========================
  **Where the model of a reading comes from.**

  A reading may start anew several times, so its model is that of some last part of
  the text (`exists_document_of_verdict`).  A reading that reported no error has not
  started anew: the first error is always reported, because there is no patience at
  the start and none is gained on the way.  Its model is then that of the whole text
  (`exists_document_of_clean`).
-/
import Rddl.Proofs.Reader.Scripted
import Rddl.Proofs.Reader.TakesDocument
import Rddl.Proofs.Reader.Yields
import Rddl.Reading

namespace Rddl

namespace Verdict

def model? : Verdict → Option Model
  | .model m => some m
  | _ => none

theorem eq_model_of_model? {v : Verdict} {m : Model} (h : v.model? = some m) : v = .model m := by
  cases v <;> simp_all [model?]

end Verdict

namespace Reading

/-- No syntax error was reported. -/
def Clean (r : Reading) : Prop := ∀ m ∈ r.log, m.isError = false

variable {n : Nat} {c : Cursor} {m : Model}

/-! ### One start -/

theorem cutOff_verdict_ne_model : (cutOff c).verdict ≠ .model m := by
  simp only [cutOff, endingAt]
  split <;> simp

/-- A reading with a model ends with its first start, or starts anew behind a token. -/
theorem run_cases (h : (run (n + 1) c).verdict = .model m) :
    (∃ c', Reader.model c = .ok m c' ∧ run (n + 1) c = endingAt c' (.model m)) ∨
    ∃ c₁ c₂ t rest, Reader.model c = .error .unexpected c₁ ∧ c₁.ahead = .token t rest ∧
      Reader.enter rest (report c₁ (.rejected t)) patience c₁ = .ok () c₂ ∧
      run (n + 1) c = run n c₂ := by
  unfold run at h
  split at h
  · -- all is read
    next m' c' hmodel =>
    cases h
    exact .inl ⟨c', hmodel, by simp [run, hmodel]⟩
  · simp [endingAt] at h
  · -- a token does not fit: it is dropped, and the reading starts anew behind it
    next c₁ hmodel =>
    split at h
    · next t rest hahead =>
      split at h
      · next c₂ henter =>
        exact .inr ⟨c₁, c₂, t, rest, hmodel, hahead, henter, by simp [run, hmodel, hahead, henter]⟩
      · simp [endingAt] at h
      · exact absurd h cutOff_verdict_ne_model
    · exact absurd h cutOff_verdict_ne_model

theorem settled_of_enter {scan : Scan} {log : List Message} {patience : Nat} {u : Unit}
    {c c' : Cursor} (h : Reader.enter scan log patience c = .ok u c') : c'.Settled := by
  obtain ⟨hlong, rfl⟩ := Reader.enter_eq_ok.mp h
  rcases scan.settled_cases with hset | ⟨digits, line, hset⟩ | hset
  · exact .inl hset
  · exact absurd hset (hlong digits line)
  · exact .inr hset

/-- A start that succeeds reads a well-shaped document that all lexemes ahead spell. -/
theorem exists_wellShaped_of_model {c' : Cursor} (hset : c.Settled)
    (h : Reader.model c = .ok m c') :
    ∃ d, Document.Written d c.lexemes ∧ d.isWellShaped = true ∧ d.model = .ok m ∧
      c.ahead.fault? = none := by
  obtain ⟨n, d, hblocks, hm⟩ := Reader.exists_blocks_of_model h
  obtain ⟨ls, htaken, hwritten, hnext⟩ := Reader.blocks_takes n hblocks
  have hpasses := Reader.model_scripted.passes_of_ok h
  -- nothing stands ahead at the end, not even an overlong integer
  rcases Reader.model_scripted.settled_of_ok h hset with ⟨t, rest, hahead⟩ | ⟨line, hahead⟩
  · simp [Cursor.next?, hahead] at hnext
  · have hempty : c'.lexemes = [] := by simp [Cursor.lexemes, hahead]
    refine ⟨d, ?_, Reader.blocks_yields n _ _ _ hblocks, hm, ?_⟩
    · simpa [htaken, hempty] using hwritten
    · rw [← hpasses.fault, hahead]
      rfl

/-! ### All starts -/

/-- The model of a reading is read without an error from some place on. -/
theorem exists_model_of_run (h : (run n c).verdict = .model m) (hset : c.Settled) :
    ∃ c₁ c', Reader.model c₁ = .ok m c' ∧ c₁.Settled ∧ c₁.lexemes <:+ c.lexemes := by
  induction n generalizing c with
  | zero => exact absurd h cutOff_verdict_ne_model
  | succ n ih =>
    rcases run_cases h with ⟨c', hmodel, -⟩ | ⟨c₁, c₂, t, rest, hmodel, hahead, henter, hrun⟩
    · exact ⟨c, c', hmodel, hset, List.suffix_refl _⟩
    · obtain ⟨c₃, c', hmodel', hset', hsuffix⟩ := ih (hrun ▸ h) (settled_of_enter henter)
      have hpasses := Reader.model_scripted.passes_of_error hmodel
      obtain ⟨-, rfl⟩ := Reader.enter_eq_ok.mp henter
      refine ⟨c₃, c', hmodel', hset', hsuffix.trans (List.IsSuffix.trans ?_ hpasses.lexemes)⟩
      simp [Cursor.lexemes, hahead]

/-- What is in the log at a start stays in it. -/
theorem mem_log_of_run (h : (run n c).verdict = .model m) {e : Message} (he : e ∈ c.log) :
    e ∈ (run n c).log := by
  induction n generalizing c with
  | zero => exact absurd h cutOff_verdict_ne_model
  | succ n ih =>
    rcases run_cases h with ⟨c', hmodel, hrun⟩ | ⟨c₁, c₂, t, rest, hmodel, hahead, henter, hrun⟩
    · obtain ⟨new, hlog, -⟩ := (Reader.model_scripted.passes_of_ok hmodel).log
      simp [hrun, endingAt, hlog, he]
    · obtain ⟨new, hlog, -⟩ := (Reader.model_scripted.passes_of_error hmodel).log
      obtain ⟨-, rfl⟩ := Reader.enter_eq_ok.mp henter
      rw [hrun]
      refine ih (hrun ▸ h) ?_
      simp only [report, List.mem_append]
      right
      split <;> simp [hlog, he]

/-- A reading that reports no error, and has no patience at its start, starts only once. -/
theorem model_of_clean_run (h : (run n c).verdict = .model m) (hclean : (run n c).Clean)
    (hpatience : c.patience = 0) : ∃ c', Reader.model c = .ok m c' := by
  cases n with
  | zero => exact absurd h cutOff_verdict_ne_model
  | succ n =>
    rcases run_cases h with ⟨c', hmodel, -⟩ | ⟨c₁, c₂, t, rest, hmodel, hahead, henter, hrun⟩
    · exact ⟨c', hmodel⟩
    · have hpasses := Reader.model_scripted.passes_of_error hmodel
      have hzero : c₁.patience = 0 := Nat.le_zero.mp (hpatience ▸ hpasses.patience)
      obtain ⟨-, rfl⟩ := Reader.enter_eq_ok.mp henter
      have hmem : Message.rejected t ∈ (run (n + 1) c).log := by
        rw [hrun]
        exact mem_log_of_run (hrun ▸ h) (by simp [report, hzero])
      simpa [Message.isError] using hclean _ hmem

/-! ### Whole texts -/

def startOf (scan : Scan) : Cursor := ⟨scan.settled, scan.skipped.reverse, 0⟩

/-- A reading with a model starts at the first piece that is no illegal character. -/
theorem ofScan_cases {scan : Scan} (h : (ofScan scan).verdict = .model m) :
    ofScan scan = run (scan.size + 1) (startOf scan) ∧ (startOf scan).Settled := by
  unfold ofScan at h
  split at h
  · next c henter =>
    have hstart : c = startOf scan := by
      obtain ⟨-, rfl⟩ := Reader.enter_eq_ok.mp henter
      simp [startOf]
    rw [← hstart]
    exact ⟨by simp only [ofScan, henter], settled_of_enter henter⟩
  · simp [endingAt] at h
  · exact absurd h cutOff_verdict_ne_model

/-- A text is scanned as its characters are, which are quicker to evaluate. -/
theorem scan_eq_walk (line : Nat) {text : String} {cs : List Char}
    (h : text = String.ofList cs) : Scan.ofText line text = .walk 0 line 0 cs := by
  rw [h, Scan.ofText, String.toList_ofList]

theorem ofText_eq_ofScan (line : Nat) {text : String} {cs : List Char}
    (h : text = String.ofList cs) : ofText line text = ofScan (.walk 0 line 0 cs) := by
  rw [ofText, scan_eq_walk line h]

/-- The model of a reading is that of a well-shaped document spelled by a last part of the
    text. -/
theorem exists_wellShaped_of_verdict {scan : Scan} (h : (ofScan scan).verdict = .model m) :
    ∃ d ls, Document.Written d ls ∧ d.isWellShaped = true ∧ d.model = .ok m ∧
      ls <:+ scan.lexemes := by
  obtain ⟨hrun, hset⟩ := ofScan_cases h
  obtain ⟨c, c', hmodel, hset', hsuffix⟩ := exists_model_of_run (hrun ▸ h) hset
  obtain ⟨d, hwritten, hshape, hm, -⟩ := exists_wellShaped_of_model hset' hmodel
  exact ⟨d, c.lexemes, hwritten, hshape, hm, by simpa [Cursor.lexemes, startOf] using hsuffix⟩

/-- **The model of a reading is that of a document spelled by a last part of the text.** -/
theorem exists_document_of_verdict {scan : Scan} (h : (ofScan scan).verdict = .model m) :
    ∃ d ls, Document.Written d ls ∧ d.model = .ok m ∧ ls <:+ scan.lexemes := by
  obtain ⟨d, ls, hwritten, -, hm, hsuffix⟩ := exists_wellShaped_of_verdict h
  exact ⟨d, ls, hwritten, hm, hsuffix⟩

/-- The model of a reading without an error is that of a well-shaped document spelled by the
    whole text. -/
theorem exists_wellShaped_of_clean {scan : Scan} (h : (ofScan scan).verdict = .model m)
    (hclean : (ofScan scan).Clean) :
    ∃ d, Document.Written d scan.lexemes ∧ d.isWellShaped = true ∧ d.model = .ok m ∧
      scan.fault? = none := by
  obtain ⟨hrun, hset⟩ := ofScan_cases h
  obtain ⟨c', hmodel⟩ := model_of_clean_run (hrun ▸ h) (hrun ▸ hclean) rfl
  obtain ⟨d, hwritten, hshape, hm, hnone⟩ := exists_wellShaped_of_model hset hmodel
  refine ⟨d, ?_, hshape, hm, ?_⟩
  · simpa [Cursor.lexemes, startOf] using hwritten
  · simpa [startOf] using hnone

/-- **The model of a reading without an error is that of a document spelled by the whole
    text.** -/
theorem exists_document_of_clean {scan : Scan} (h : (ofScan scan).verdict = .model m)
    (hclean : (ofScan scan).Clean) :
    ∃ d, Document.Written d scan.lexemes ∧ d.model = .ok m ∧ scan.fault? = none := by
  obtain ⟨d, hwritten, -, hm, hnone⟩ := exists_wellShaped_of_clean h hclean
  exact ⟨d, hwritten, hm, hnone⟩

end Reading

end Rddl
