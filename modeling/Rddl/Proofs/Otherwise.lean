/-
  Rddl/Proofs/Otherwise.lean
  ==========================
  **Where an outcome can have the rest of the weight.**

  An outcome of a discrete distribution can be left the weight that the others do not have, by
  the word `otherwise`.  It has to be the first one for that.  In the last place behind weighted
  outcomes, where one would write it, the word is a syntax error: the domain is given up with all
  that was read, and what follows has no domain (`Reading.final_otherwise`).
-/
import Rddl.Proofs.Course
import Rddl.Proofs.Reader.Stops
import Rddl.Proofs.RoundTrip

namespace Rddl

open Cursor

/-! ### Readings with one error -/

theorem Cursor.Faces.exists_token {c : Cursor} {l : Lexeme} {ls : List Lexeme}
    (h : c.Faces (l :: ls)) : ∃ t rest, c.ahead = .token t rest ∧ t.lexeme = l ∧
      rest.lexemes = ls ∧ rest.fault? = none := by
  have hlexemes := h.lexemes
  have hfault := h.fault
  rcases h.settled with ⟨t, rest, hahead⟩ | ⟨line, hahead⟩
  · rw [Cursor.lexemes, hahead, Scan.lexemes_token, List.cons.injEq] at hlexemes
    rw [hahead] at hfault
    exact ⟨t, rest, hahead, hlexemes.1, hlexemes.2, hfault⟩
  · simp [Cursor.lexemes, hahead] at hlexemes

/-- In front of a lexeme that starts no block nothing is read. -/
theorem Reader.model_of_afterBlock {c : Cursor} (h : afterBlock c.next? = false) :
    model c = .error .unexpected c := by
  have hblocks : ∀ n, blocks n c = .error .unexpected c := by
    intro n
    cases n with
    | zero => rfl
    | succ n =>
      rw [blocks, bind_run_ok (peek_run c)]
      generalize c.next? = next at h
      split
      · cases h
      · cases h
      · cases h
      · cases h
      · rfl
  rw [model, bind_run_ok (bound_eq_ok.mpr ⟨rfl, rfl⟩)]
  exact bind_run_error (hblocks _)

namespace Reading

variable {n : Nat} {c c₁ : Cursor} {t : Token} {rest : Scan} {l : Lexeme}
  {ls ds ks : List Lexeme} {x : Except Fault Model}

/-- A reading starts anew behind a token at which it stops. -/
theorem run_restarts (hmodel : Reader.model c = .error .unexpected c₁)
    (hahead : c₁.ahead = .token t rest) (hfault : rest.fault? = none) :
    run (n + 1) c = run n (behind rest (report c₁ (.rejected t)) patience) ∧
      (behind rest (report c₁ (.rejected t)) patience).Faces rest.lexemes := by
  rcases faces_of_enter hfault (report c₁ (.rejected t)) patience c₁ with ⟨c₂, henter, hfaces⟩
  have hrun : run (n + 1) c = run n c₂ := by
    simp only [run, hmodel, hahead, henter]
  rcases Reader.enter_eq_ok.mp henter with ⟨-, rfl⟩
  exact ⟨hrun, hfaces⟩

/-- Events that are no errors do not count among the errors. -/
theorem filter_isError_append {new : List Message} (h : ∀ m ∈ new, m.isError = false)
    (log : List Message) : (new ++ log).filter Message.isError = log.filter Message.isError := by
  have hnone : new.filter Message.isError = [] := by
    rw [List.filter_eq_nil_iff]
    intro m hm
    simp [h m hm]
  rw [List.filter_append, hnone, List.nil_append]

theorem filter_isError_behind (rest : Scan) (log : List Message) (patience : Nat) :
    (behind rest log patience).log.filter Message.isError = log.filter Message.isError := by
  apply filter_isError_append
  intro m hm
  exact Scan.isError_of_mem_skipped (List.mem_reverse.mp hm)

/-- Soon after an error, lexemes that start no block are dropped without a report, and what
    follows is read. -/
theorem run_drops (hds : ∀ l ∈ ds, Reader.afterBlock (some l) = false)
    (hks : Reader.Runs Reader.model ks [] x) (hfaces : c.Faces (ds ++ ks))
    (hpatience : c.patience ≠ 0) (hn : ds.length < n) :
    (run n c).verdict = .ofResult x ∧
      (run n c).log.filter Message.isError = (c.log.filter Message.isError).reverse := by
  rcases Nat.exists_eq_succ_of_ne_zero (Nat.ne_of_gt (Nat.zero_lt_of_lt hn)) with ⟨n, rfl⟩
  induction ds generalizing n c with
  | nil =>
    rcases run_of_runs n hfaces hks with ⟨c', hrun, new, hlog, hnew⟩
    rw [hrun]
    refine ⟨rfl, ?_⟩
    rw [endingAt, List.filter_reverse, hlog, filter_isError_append hnew]
  | cons l ds ih =>
    rcases List.forall_mem_cons.mp hds with ⟨hl, hds⟩
    have hmodel : Reader.model c = .error .unexpected c := by
      apply Reader.model_of_afterBlock
      rwa [hfaces.next?]
    rcases hfaces.exists_token with ⟨t, rest, hahead, -, hrest, hfault⟩
    rcases run_restarts (n := n) hmodel hahead hfault with ⟨hrun, hnext⟩
    rw [List.length_cons] at hn
    rcases Nat.exists_eq_succ_of_ne_zero (n := n) (by omega) with ⟨n, rfl⟩
    -- every token that is dropped puts the next report off again
    rcases ih hds (hrest ▸ hnext) (by simp [behind, patience]) n (by omega) with ⟨hverdict, herrors⟩
    rw [hrun]
    refine ⟨hverdict, ?_⟩
    rw [herrors, filter_isError_behind, report, if_neg hpatience]

/-- **The first error is reported, and what it brings along is not.**  If the reader stops at a
    token, and between it and the next block there are only lexemes that start none, the token
    is the only one about which an error is reported, and what comes of the reading comes of
    the blocks behind. -/
theorem verdict_of_stop {scan : Scan} (hfault : scan.fault? = none)
    (hlexemes : scan.lexemes = ls ++ l :: (ds ++ ks))
    (hstop : Reader.StopsAt Reader.model ls (l :: (ds ++ ks)))
    (hds : ∀ l ∈ ds, Reader.afterBlock (some l) = false)
    (hks : Reader.Runs Reader.model ks [] x) :
    (ofScan scan).verdict = .ofResult x ∧ ∃ before t after, scan.tokens = before ++ t :: after ∧
      t.lexeme = l ∧ after.map Token.lexeme = ds ++ ks ∧
      (ofScan scan).log.filter Message.isError = [.rejected t] := by
  rcases faces_of_enter hfault [] 0 ⟨scan, [], 0⟩ with ⟨c, henter, hfaces⟩
  rw [hlexemes] at hfaces
  rcases hstop c hfaces with ⟨c₁, hmodel, hfaces₁⟩
  rcases hfaces₁.exists_token with ⟨t, rest, hahead, ht, hrest, hfault'⟩
  rcases run_restarts (n := scan.size) hmodel hahead hfault' with ⟨hrun, hnext⟩
  have hread : ofScan scan = run scan.size (behind rest (report c₁ (.rejected t)) patience) := by
    simp only [ofScan, henter, hrun]
  have hsize : ds.length < scan.size := by
    rw [Scan.size_eq_length_lexemes, hlexemes]
    simp only [List.length_append, List.length_cons]
    omega
  obtain ⟨hverdict, herrors⟩ :=
    run_drops hds hks (hrest ▸ hnext) (by simp [behind, patience]) hsize
  have hpasses := Reader.model_scripted.passes_of_error hmodel
  rcases hpasses.tokens with ⟨before, hbefore⟩
  rcases hpasses.log with ⟨new, hlog, hnew⟩
  -- no error so far, so the rejected lexeme is reported
  have hzero := hpasses.patience
  rcases Reader.enter_eq_ok.mp henter with ⟨-, rfl⟩
  rw [hread]
  refine ⟨hverdict, before, t, rest.tokens, ?_, ht, hrest, ?_⟩
  · rw [hahead, Scan.tokens, Scan.tokens_settled] at hbefore
    exact hbefore.symm
  · have hstart : (scan.skipped.reverse ++ []).filter Message.isError = [] :=
      filter_isError_behind scan [] 0
    rw [herrors, filter_isError_behind, report, if_pos (Nat.le_zero.mp hzero), hlog,
      List.filter_cons_of_pos rfl, filter_isError_append hnew, hstart]
    rfl

end Reading

/-! ### The last outcome -/

/-- Weighted outcomes with a last one that has the rest of the weight, as a first outcome may. -/
theorem CommaTail.exists_of_otherwise {os : List Outcome} {label : String} {ls : List Lexeme}
    (h : CommaTail Outcome.FirstWritten (os ++ [.otherwise label]) ls)
    (hweighted : ∀ o ∈ os, ∃ name weight, o = .weighted name weight) :
    ∃ ms ns, CommaTail Outcome.Written os ms ∧ LabelWritten label ns ∧
      ls = ms ++ .symbol .comma :: (ns ++ [.symbol .colon, .keyword .otherwise]) := by
  induction os generalizing ls with
  -- the last outcome is all there is
  | nil =>
    cases h with
    | cons hlast hnil =>
      cases hlast with
      | otherwise hlabel =>
        cases hnil
        exact ⟨[], _, .nil, hlabel, by simp⟩
  -- an outcome with a weight is written here as it is first
  | cons o os ih =>
    rcases List.forall_mem_cons.mp hweighted with ⟨hweight, hweights⟩
    rcases hweight with ⟨name, weight, rfl⟩
    cases h with
    | cons ho hos =>
      rcases ih hos hweights with ⟨ms, ns, hms, hlabel, rfl⟩
      cases ho with
      | weighted hname hweight =>
        exact ⟨_, ns, .cons (.weighted hname hweight) hms, hlabel, by simp⟩

/-- The lexemes of non-fluents and an instance that have only names. -/
def emptyBlocks (n i : String) : List Lexeme :=
  [.keyword .nonFluents, .ident n, .symbol .leftCurly, .symbol .rightCurly,
    .keyword .instanceWord, .ident i, .symbol .leftCurly, .symbol .rightCurly]

/-- Without a domain there is no model. -/
theorem Reader.emptyBlocks_runs (n i : String) :
    Runs model (emptyBlocks n i) [] (.error (.missingKey "domain")) := by
  have hblocks : Items Block.Written [.nonFluents ⟨n, []⟩, .problem ⟨i, []⟩] _ :=
    .cons (.nonFluents n .nil) (.cons (.problem i .nil) .nil)
  have hwritten : Document.Written [.nonFluents ⟨n, []⟩, .problem ⟨i, []⟩] (emptyBlocks n i) := by
    simpa [Document.Written, emptyBlocks] using hblocks
  exact model_runs hwritten rfl

/-- The document of a reward stops where the reward does. -/
theorem Reader.rewardDocument_stops (d : String) {ls rest : List Lexeme}
    (h : StopsAt expression ls rest) :
    StopsAt model ([.keyword .domain, .ident d, .symbol .leftCurly,
      .keyword .pvariables, .symbol .leftCurly, .symbol .rightCurly, .symbol .semicolon,
      .keyword .cpfs, .symbol .leftCurly, .symbol .rightCurly, .symbol .semicolon,
      .keyword .reward, .symbol .assign] ++ ls) rest := by
  have hsections : Items (ReadsSection domainSection) [.pvariables [], .cpfs .cpfs []] _ :=
    .cons (domainSection_reads (.pvariables .nil) (by simp [DomainSection.expressions]))
      (.cons (domainSection_reads (.cpfs .nil) (by simp [DomainSection.expressions])) .nil)
  exact model_stops d hsections rfl (.andThen (.symbol .assign) (.first h _))

/-- **The rest of the weight in the last place.**  A discrete distribution stands alone as the
    reward of a document; all its outcomes are weighted but the last, which has `otherwise` in
    the place of a weight.  If there is no other outcome, this is read without a syntax error,
    and the reward is the distribution with its type and that outcome.  If there is one, the
    word `otherwise` is reported as the only syntax error, and the reading fails for want of a
    domain. -/
theorem Reading.final_otherwise (line : Nat) (text : String) (d n i type label : String)
    {outcomes : List Outcome} {ls : List Lexeme}
    (houtcomes : CommaList Outcome.FirstWritten (outcomes ++ [.otherwise label]) ls)
    (hweighted : ∀ o ∈ outcomes, ∃ name weight, o = .weighted name weight ∧
      weight.isWellShaped = true)
    (hlexemes : (Scan.ofText line text).lexemes = rewardDocument d n i
      (.keyword .discrete :: .symbol .leftParen :: .ident type :: .symbol .comma ::
        (ls ++ [.symbol .rightParen])))
    (hfault : (Scan.ofText line text).fault? = none) :
    (outcomes = [] → (ofText line text).Clean ∧
      ∃ m, (ofText line text).verdict = .model m ∧ m.domain.reward =
        .expression (.tuple [.text "randomvar", .tuple [.text "Discrete",
          .tuple [.tuple [.text "enum_type", .text type],
            .tuple [.text "lconst", .tuple [.text label, .text "otherwise"]]]]])) ∧
    (outcomes ≠ [] → (ofText line text).verdict = .fault (.missingKey "domain") ∧
      ∃ before t after, (Scan.ofText line text).tokens = before ++ t :: after ∧
        t.lexeme = .keyword .otherwise ∧
        after.map Token.lexeme =
          [.symbol .rightParen, .symbol .semicolon, .symbol .rightCurly] ++ emptyBlocks n i ∧
        (ofText line text).log.filter Message.isError = [.rejected t]) := by
  constructor
  · rintro rfl
    cases houtcomes with
    | mk hlast hnil =>
      cases hnil
      have hwritten := Expr.Written.discrete type hlast .nil
      have hreads := Reader.model_reads d n i hwritten rfl
      rw [List.append_nil] at hlexemes
      rw [List.nil_append, ← hlexemes] at hreads
      rcases model_of_reads hfault hreads with ⟨hverdict, hclean⟩
      exact ⟨hclean, _, hverdict, rfl⟩
  · intro hne
    rcases List.exists_cons_of_ne_nil hne with ⟨first, others, rfl⟩
    have hshape : ∀ o ∈ first :: others, o.isWellShaped = true := by
      intro o ho
      rcases hweighted o ho with ⟨name, weight, rfl, hweight⟩
      exact hweight
    cases houtcomes with
    | mk hfirst htail =>
      -- behind the first outcome the word is no weight, and the reader stops right before it
      obtain ⟨os, ns, hothers, hlabel, rfl⟩ := htail.exists_of_otherwise fun o ho => by
        rcases hweighted o (List.mem_cons_of_mem first ho) with ⟨name, weight, heq, -⟩
        exact ⟨name, weight, heq⟩
      have hstop : Reader.StopsAt Reader.expression _ (.keyword .otherwise ::
          ([.symbol .rightParen, .symbol .semicolon, .symbol .rightCurly] ++ emptyBlocks n i)) :=
        Reader.expression_stops type hfirst hothers hlabel hshape
      have hclosing : ∀ l ∈ [Lexeme.symbol .rightParen, .symbol .semicolon, .symbol .rightCurly],
          Reader.afterBlock (some l) = false := by decide
      refine verdict_of_stop hfault ?_ (Reader.rewardDocument_stops d hstop) hclosing
        (Reader.emptyBlocks_runs n i)
      simpa [rewardDocument, emptyBlocks] using hlexemes

def loneOtherwiseText : String := "domain d \x7b pvariables \x7b \x7d; cpfs \x7b \x7d; reward =
  Discrete(t, @e : otherwise)
; \x7d non-fluents n \x7b \x7d instance i \x7b \x7d"

/-- A text whose reward has three outcomes, with the rest of a distribution in a weight, too. -/
def lastOtherwiseText : String := "domain d \x7b pvariables \x7b \x7d; cpfs \x7b \x7d; reward =
  Discrete(t, @a : p(?x) + 1, b : Discrete(u, c : otherwise), @e : otherwise)
; \x7d non-fluents n \x7b \x7d instance i \x7b \x7d"

def leadingOutcomes : List Outcome :=
  [.weighted "@a" (.binary .plus (.occurrence ⟨"p", some [.variable "?x"]⟩) (.integer 1)),
    .weighted "b" (.discrete "u" [.otherwise "c"])]

theorem leadingOutcomes_written : ∃ ls,
    CommaList Outcome.FirstWritten (leadingOutcomes ++ [.otherwise "@e"]) ls ∧
      (Scan.ofText 1 lastOtherwiseText).lexemes = rewardDocument "d" "n" "i"
        (.keyword .discrete :: .symbol .leftParen :: .ident "t" :: .symbol .comma ::
          (ls ++ [.symbol .rightParen])) := by
  refine ⟨_, .mk (.weighted (.enumValue "@a") (.binary .plus
      (.occurrence (.applied "p" (.plain (.variable "?x") .nil))) (.integer 1)))
    (.cons (.weighted (.ident "b") (.discrete "u" (.otherwise (.ident "c")) .nil))
      (.cons (.otherwise (.enumValue "@e")) .nil)), ?_⟩
  rw [lastOtherwiseText, Reading.scan_eq_walk 1 rfl]
  decide +kernel

theorem Reading.final_otherwise_of_texts :
    ((ofText 1 loneOtherwiseText).Clean ∧
      ∃ m, (ofText 1 loneOtherwiseText).verdict = .model m ∧ m.domain.reward =
        (Expr.discrete "t" [.otherwise "@e"]).datum) ∧
    (∀ o ∈ leadingOutcomes, ∃ name weight, o = .weighted name weight ∧
      weight.isWellShaped = true) ∧
    (Scan.ofText 1 lastOtherwiseText).fault? = none ∧
    (ofText 1 lastOtherwiseText).verdict = .fault (.missingKey "domain") ∧
      ∃ before t after, (Scan.ofText 1 lastOtherwiseText).tokens = before ++ t :: after ∧
        t.lexeme = .keyword .otherwise ∧
        after.map Token.lexeme =
          [.symbol .rightParen, .symbol .semicolon, .symbol .rightCurly] ++ emptyBlocks "n" "i" ∧
        (ofText 1 lastOtherwiseText).log.filter Message.isError = [.rejected t] := by
  have hlone : (Scan.ofText 1 loneOtherwiseText).lexemes = rewardDocument "d" "n" "i"
      [.keyword .discrete, .symbol .leftParen, .ident "t", .symbol .comma, .enumValue "@e",
        .symbol .colon, .keyword .otherwise, .symbol .rightParen] ∧
      (Scan.ofText 1 loneOtherwiseText).fault? = none := by
    rw [loneOtherwiseText, Reading.scan_eq_walk 1 rfl]
    decide +kernel
  -- all outcomes before the last have weights
  have hweighted : ∀ o ∈ leadingOutcomes, ∃ name weight, o = .weighted name weight ∧
      weight.isWellShaped = true := by
    intro o ho
    rcases List.mem_cons.mp ho with rfl | ho
    · exact ⟨_, _, rfl, by decide⟩
    · cases List.mem_singleton.mp ho
      exact ⟨_, _, rfl, by decide⟩
  have hfault : (Scan.ofText 1 lastOtherwiseText).fault? = none := by
    rw [lastOtherwiseText, Reading.scan_eq_walk 1 rfl]
    decide +kernel
  rcases leadingOutcomes_written with ⟨ls, hwritten, hlexemes⟩
  refine ⟨?_, hweighted, hfault,
    (final_otherwise 1 lastOtherwiseText "d" "n" "i" "t" "@e" hwritten hweighted hlexemes
      hfault).2 (by simp [leadingOutcomes])⟩
  exact (final_otherwise 1 loneOtherwiseText "d" "n" "i" "t" "@e"
    (.mk (.otherwise (.enumValue "@e")) .nil) (by simp) hlone.1 hlone.2).1 rfl

end Rddl
