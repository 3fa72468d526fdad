/-
  Rddl/Proofs/RoundTrip.lean
  ==========================
  **Reading back what is written.**

  A well-shaped expression is written out as the reward of a document, and the document
  is read again: there is no syntax error, and the reward of the model is the expression
  (`Reading.reward_of_wellShaped`).  The document has nothing else in it.
-/
import Rddl.Proofs.Outcome

namespace Rddl

/-- If a document is read from the lexemes of a sound scan, the reading of the scan has
    its model and reports no syntax error. -/
theorem Reading.model_of_reads {scan : Scan} {m : Model} (hfault : scan.fault? = none)
    (h : Reader.Reads Reader.model scan.lexemes [] m) :
    (ofScan scan).verdict = .model m ∧ (ofScan scan).Clean :=
  verdict_of_runs (x := .ok m) hfault h

/-! ### The document of a reward -/

def Reader.rewardBlock (d : String) (e : Expr) : DomainBlock :=
  ⟨d, none, [.pvariables [], .cpfs .cpfs [], .reward e]⟩

/-- The lexemes of a document whose domain, non-fluents and instance have only names,
    apart from a reward in the domain. -/
def rewardDocument (d n i : String) (reward : List Lexeme) : List Lexeme :=
  [.keyword .domain, .ident d, .symbol .leftCurly,
    .keyword .pvariables, .symbol .leftCurly, .symbol .rightCurly, .symbol .semicolon,
    .keyword .cpfs, .symbol .leftCurly, .symbol .rightCurly, .symbol .semicolon,
    .keyword .reward, .symbol .assign] ++ reward ++
  [.symbol .semicolon, .symbol .rightCurly,
    .keyword .nonFluents, .ident n, .symbol .leftCurly, .symbol .rightCurly,
    .keyword .instanceWord, .ident i, .symbol .leftCurly, .symbol .rightCurly]

namespace Reader

theorem rewardDocument_written {e : Expr} {ls : List Lexeme} (d n i : String) (h : e.Written ls) :
    Document.Written [.domain (rewardBlock d e), .nonFluents ⟨n, []⟩, .problem ⟨i, []⟩]
      (rewardDocument d n i ls) := by
  have hwritten : Items Block.Written
      [.domain (rewardBlock d e), .nonFluents ⟨n, []⟩, .problem ⟨i, []⟩] _ :=
    .cons (.domain d .none (.cons (.pvariables .nil) (.cons (.cpfs .nil) (.cons (.reward h) .nil))))
      (.cons (.nonFluents n .nil) (.cons (.problem i .nil) .nil))
  simpa [Document.Written, rewardDocument, inBraces] using hwritten

def rewardModel (d n i : String) (e : Expr) : Model where
  domain := {
    name := .text d
    requirements := .absent
    pvariables := .list []
    cpfs := .tuple [.text "cpfs", .list []]
    reward := e.datum
    types := .list []
    preconditions := .list []
    invariants := .list []
    constraints := .list [] }
  nonFluents := .nonFluents (.text n) []
  problem := .problem (.text i) []

theorem model_reads {e : Expr} {ls : List Lexeme} (d n i : String) (h : e.Written ls)
    (hshape : e.isWellShaped = true) :
    Reads model (rewardDocument d n i ls) [] (rewardModel d n i e) := by
  refine model_runs (rewardDocument_written d n i h) (Document.isWellShaped_iff.mpr ?_)
  simpa [rewardBlock, Block.expressions, DomainSection.expressions] using hshape

end Reader

/-! ### Round trip -/

/-- **Expressions are read back as they are written.**  A well-shaped tree, written out
    without further brackets as the reward of a document, is read without a syntax error
    as the reward of the model. -/
theorem Reading.reward_of_wellShaped {e : Expr} {ls : List Lexeme} {scan : Scan} (d n i : String)
    (hwritten : e.Written ls) (hshape : e.isWellShaped = true)
    (hlexemes : scan.lexemes = rewardDocument d n i ls) (hfault : scan.fault? = none) :
    (ofScan scan).Clean ∧ ∃ m, (ofScan scan).verdict = .model m ∧ m.domain.reward = e.datum := by
  have hreads := Reader.model_reads d n i hwritten hshape
  rw [← hlexemes] at hreads
  obtain ⟨hverdict, hclean⟩ := model_of_reads hfault hreads
  exact ⟨hclean, _, hverdict, rfl⟩

/-- A text with operators of several levels, brackets of both kinds, and a conditional
    that takes up the rest of the reward. -/
def nestedRewardText : String := "domain d \x7b pvariables \x7b \x7d; cpfs \x7b \x7d; reward =
  -a + b * [forall_\x7b?x : t\x7d p(?x, @e, q(r)) => c ^ ~f[1, 2] | (c <=> true)] -
    if (a < b + 1) then Bernoulli(1) else
      switch (s - 1) \x7b case @e : Discrete(t, @u : otherwise, w : sum_\x7b?y : t\x7d 2),
        default : Uniform(0, 3) \x7d
; \x7d non-fluents n \x7b \x7d instance i \x7b \x7d"

def nestedReward : Expr :=
  .binary .minus
    (.binary .plus (.unary .minus (.occurrence ⟨"a", none⟩))
      (.binary .times (.occurrence ⟨"b", none⟩)
        (.group .square (.quantified .universal [⟨"?x", "t"⟩]
          (.binary .implies
            (.occurrence ⟨"p", some [.variable "?x", .enumValue "@e", .applied "q" [.fluent "r"]]⟩)
            (.binary .or
              (.binary .and (.occurrence ⟨"c", none⟩)
                (.unary .not (.call "f" [.integer 1, .integer 2])))
              (.group .round (.binary .equivalent (.occurrence ⟨"c", none⟩) (.truth true)))))))))
    (.conditional
      (.binary .less (.occurrence ⟨"a", none⟩)
        (.binary .plus (.occurrence ⟨"b", none⟩) (.integer 1)))
      (.random .bernoulli (.integer 1))
      (.switch (.binary .minus (.occurrence ⟨"s", none⟩) (.integer 1))
        [.value (.enumValue "@e") (.discrete "t" [.otherwise "@u",
            .weighted "w" (.aggregated "sum" [⟨"?y", "t"⟩] (.integer 2))]),
          .default (.randomPair .uniform (.integer 0) (.integer 3))]))

/-- The text is a document with the tree as its reward. -/
theorem nestedReward_written : ∃ ls, nestedReward.Written ls ∧
    (Scan.ofText 1 nestedRewardText).lexemes = rewardDocument "d" "n" "i" ls := by
  -- the constructors follow the tree from the root down
  refine ⟨_, .binary .minus
    (.binary .plus (.unary .minus (.occurrence (.plain "a")))
      (.binary .times (.occurrence (.plain "b"))
        (.group .square (.quantified .universal (.mk (.mk "?x" "t") .nil)
          (.binary .implies
            (.occurrence (.applied "p" (.plain (.variable "?x") (.cons (.enumValue "@e")
              (.cons (.applied "q" (.plain (.fluent "r") .nil)) .nil)))))
            (.binary .or
              (.binary .and (.occurrence (.plain "c"))
                (.unary .not (.call "f" (.mk (.integer 1) (.cons (.integer 2) .nil)))))
              (.group .round
                (.binary .equivalent (.occurrence (.plain "c")) (.truth true)))))))))
    (.conditional
      (.binary .less (.occurrence (.plain "a"))
        (.binary .plus (.occurrence (.plain "b")) (.integer 1)))
      (.random .bernoulli (.integer 1))
      (.switch rfl (.binary .minus (.occurrence (.plain "s")) (.integer 1))
        (.mk (.value rfl (.enumValue "@e")
            (.discrete "t" (.otherwise (.enumValue "@u"))
              (.cons (.weighted (.ident "w")
                (.aggregated "sum" (.mk (.mk "?y" "t") .nil) (.integer 2))) .nil)))
          (.cons (.default (.randomPair .uniform (.integer 0) (.integer 3))) .nil)))), ?_⟩
  rw [nestedRewardText, Reading.scan_eq_walk 1 rfl]
  decide +kernel

theorem Reading.reward_of_nestedRewardText :
    nestedReward.isWellShaped = true ∧
      (∃ ls, nestedReward.Written ls ∧
        (Scan.ofText 1 nestedRewardText).lexemes = rewardDocument "d" "n" "i" ls) ∧
      (Reading.ofText 1 nestedRewardText).Clean ∧
      ∃ m, (Reading.ofText 1 nestedRewardText).verdict = .model m ∧
        m.domain.reward = nestedReward.datum := by
  have hshape : nestedReward.isWellShaped = true := by decide
  have hfault : (Scan.ofText 1 nestedRewardText).fault? = none := by
    rw [nestedRewardText, Reading.scan_eq_walk 1 rfl]
    decide +kernel
  obtain ⟨ls, hwritten, hlexemes⟩ := nestedReward_written
  exact ⟨hshape, ⟨ls, hwritten, hlexemes⟩,
    reward_of_wellShaped "d" "n" "i" hwritten hshape hlexemes hfault⟩

end Rddl
