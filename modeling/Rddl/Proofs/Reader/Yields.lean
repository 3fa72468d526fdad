/-
  Rddl/Proofs/Reader/Yields.lean
  ==============================
  **What shape the trees have that are read.**

  `Yields r P` says that a successful run of the reader `r` ends with a result and in
  front of a lexeme that are related by `P`.  An expression ends in front of no operator,
  and an operand that is open has taken up all operators behind it; so the operands of a
  chain are linked, and what is put together of them is well-shaped (`expression_yields`,
  `blocks_yields`).
-/
import Rddl.Proofs.Reader.Run
import Rddl.Proofs.Syntax.Shape

namespace Rddl.Reader

variable {α β : Type}

/-- Every successful run ends with a result and in front of a lexeme that are related. -/
def Yields (r : Reader α) (P : α → Option Lexeme → Prop) : Prop :=
  ∀ c a c', r c = .ok a c' → P a c'.next?

namespace Yields

variable {r : Reader α} {P : α → Option Lexeme → Prop} {Q : β → Option Lexeme → Prop}

/-! ### Composition -/

theorem unexpected : (unexpected : Reader α).Yields P := by
  intro c a c' h
  exact absurd h unexpected_ne_ok

theorem pure {a : α} (h : ∀ next, P a next) : (pure a : Reader α).Yields P := by
  intro c b c' hrun
  obtain ⟨rfl, rfl⟩ := pure_eq_ok.mp hrun
  exact h _

theorem bind {f : α → Reader β} (hr : r.Yields P)
    (hf : ∀ a next, P a next → (f a).Yields Q) : (r >>= f).Yields Q := by
  intro c b c' h
  obtain ⟨a, c₁, ha, hb⟩ := bind_eq_ok.mp h
  exact hf a _ (hr c a c₁ ha) c₁ b c' hb

/-- A first part of which nothing needs to be known. -/
theorem after {f : α → Reader β} (hf : ∀ a, (f a).Yields Q) : (r >>= f).Yields Q := by
  intro c b c' h
  obtain ⟨a, c₁, -, hb⟩ := bind_eq_ok.mp h
  exact hf a c₁ b c' hb

theorem map {f : α → β} (hr : r.Yields P) (hf : ∀ a next, P a next → Q (f a) next) :
    Yields (do Pure.pure (f (← r))) Q := by
  intro c b c' h
  simp only [bind_eq_ok, pure_eq_ok] at h
  obtain ⟨a, c₁, ha, rfl, rfl⟩ := h
  exact hf a _ (hr c a c₁ ha)

theorem imp {P' : α → Option Lexeme → Prop} (hr : r.Yields P)
    (h : ∀ a next, P a next → P' a next) : r.Yields P' :=
  fun c a c' hrun => h a _ (hr c a c' hrun)

end Yields

/-! ### Lists -/

section Lists

variable {item : Reader α} {P : α → Prop}

theorem commaTail_yields (hitem : item.Yields fun a _ => P a) (n : Nat) :
    (commaTail item n).Yields fun as _ => ∀ a ∈ as, P a := by
  induction n with
  | zero => exact .unexpected
  | succ n ih =>
    refine .after fun more => ?_
    split
    · refine .bind hitem fun a _ ha => ih.map fun as _ has => ?_
      simpa using ⟨ha, has⟩
    · exact .pure (by simp)

theorem commaList_yields (hitem : item.Yields fun a _ => P a) (n : Nat) :
    (commaList item n).Yields fun as _ => ∀ a ∈ as, P a := by
  refine .bind hitem fun a _ ha => (commaTail_yields hitem n).map fun as _ has => ?_
  simpa using ⟨ha, has⟩

theorem itemsToClose_yields (hitem : item.Yields fun a _ => P a) (n : Nat) :
    (itemsToClose item n).Yields fun as _ => ∀ a ∈ as, P a := by
  induction n with
  | zero => exact .unexpected
  | succ n ih =>
    refine .after fun closed => ?_
    split
    · exact .pure (by simp)
    · refine .bind hitem fun a _ ha => ih.map fun as _ has => ?_
      simpa using ⟨ha, has⟩

end Lists

/-! ### Parts of operands -/

def EndsChain (next : Option Lexeme) : Prop := next.bind BinaryOp.ofLexeme? = none

def ExprBefore (e : Expr) (next : Option Lexeme) : Prop := e.isWellShaped = true ∧ EndsChain next

/-- An operand, and if it is open, no operator that it would have to take up. -/
def OperandBefore (e : Expr) (next : Option Lexeme) : Prop :=
  e.IsOperand ∧ (e.isOpen = true → EndsChain next)

theorem operandBefore_of_closed {e : Expr} (hshape : e.isWellShaped = true)
    (hlevel : e.level? = none) (hopen : e.isOpen = false) (next : Option Lexeme) :
    OperandBefore e next :=
  ⟨⟨hshape, hlevel⟩, by simp [hopen]⟩

section Parts

variable {expr : Reader Expr} (hexpr : expr.Yields ExprBefore)
include hexpr

theorem subject_yields : (subject expr).Yields fun e _ => e.isWellShaped = true := by
  refine .bind hexpr fun e _ he => ?_
  split
  · exact .pure fun _ => he.1
  · exact .unexpected

theorem namedOperand_yields (name : String) (n : Nat) :
    (namedOperand expr name n).Yields OperandBefore := by
  refine .after fun next => ?_
  split
  · refine .after fun _ => .bind (commaList_yields (hexpr.imp fun _ _ he => he.1) n)
      fun args _ hargs => .after fun _ => .pure ?_
    exact operandBefore_of_closed (by rwa [Expr.isWellShaped, Expr.areWellShaped_iff]) rfl rfl
  · refine .after fun vars => hexpr.map fun body next hbody => ?_
    exact ⟨⟨by rw [Expr.isWellShaped, hbody.1], rfl⟩, fun _ => hbody.2⟩
  · exact .after fun o => .pure (operandBefore_of_closed rfl rfl rfl)

theorem conditional_yields : (conditional expr).Yields OperandBefore := by
  refine .after fun _ => .bind hexpr fun test _ htest => .after fun _ => .after fun _ =>
    .bind hexpr fun yes _ hyes => .after fun _ => hexpr.map fun no next hno => ?_
  exact ⟨⟨by simp [Expr.isWellShaped, htest.1, hyes.1, hno.1], rfl⟩, fun _ => hno.2⟩

theorem quantified_yields (quantifier : Quantifier) (n : Nat) :
    Yields (do
      let vars ← typedVars n
      pure (Expr.quantified quantifier vars (← expr))) OperandBefore := by
  refine .after fun vars => hexpr.map fun body next hbody => ?_
  exact ⟨⟨by rw [Expr.isWellShaped, hbody.1], rfl⟩, fun _ => hbody.2⟩

theorem switchCase_yields : (switchCase expr).Yields fun c _ => c.isWellShaped = true := by
  refine .after fun next => ?_
  split
  · refine .after fun _ => .bind (subject_yields hexpr) fun guard _ hguard => .after fun _ =>
      .bind hexpr fun body _ hbody => .pure fun _ => ?_
    rw [Case.isWellShaped, hguard, hbody.1]
    rfl
  · refine .after fun _ => .after fun _ => .bind hexpr fun body _ hbody => .pure fun _ => ?_
    rw [Case.isWellShaped, hbody.1]
  · exact .unexpected

theorem switch_yields (n : Nat) : (switch expr n).Yields OperandBefore := by
  refine .after fun _ => .bind (subject_yields hexpr) fun on _ hon => .after fun _ =>
    .after fun _ => .bind (commaList_yields (switchCase_yields hexpr) n) fun cases _ hcases =>
      .after fun _ => .pure ?_
  refine operandBefore_of_closed ?_ rfl rfl
  rw [Expr.isWellShaped, hon, Case.areWellShaped_iff.mpr hcases]
  rfl

theorem outcome_yields : (outcome expr).Yields fun o _ => o.isWellShaped = true := by
  refine .after fun name => .after fun _ => .bind hexpr fun weight _ hweight => .pure fun _ => ?_
  rw [Outcome.isWellShaped, hweight.1]

theorem firstOutcome_yields : (firstOutcome expr).Yields fun o _ => o.isWellShaped = true := by
  refine .after fun name => .after fun _ => .after fun last => ?_
  split
  · exact .pure fun _ => rfl
  · refine .bind hexpr fun weight _ hweight => .pure fun _ => ?_
    rw [Outcome.isWellShaped, hweight.1]

theorem discrete_yields (n : Nat) : (discrete expr n).Yields OperandBefore := by
  refine .after fun _ => .after fun type => .after fun _ =>
    .bind (firstOutcome_yields hexpr) fun first _ hfirst =>
      .bind (commaTail_yields (outcome_yields hexpr) n) fun rest _ hrest => .after fun _ => .pure ?_
  refine operandBefore_of_closed ?_ rfl rfl
  rw [Expr.isWellShaped, Outcome.areWellShaped, hfirst, Outcome.areWellShaped_iff.mpr hrest]
  rfl

theorem dirichlet_yields : (dirichlet expr).Yields OperandBefore := by
  refine .after fun _ => .after fun type => .after fun _ => .bind hexpr
    fun parameter _ hparameter => .after fun _ => .pure ?_
  exact operandBefore_of_closed (by rw [Expr.isWellShaped, hparameter.1]) rfl rfl

theorem random_yields (d : UnaryDistribution) : (random expr d).Yields OperandBefore := by
  refine .after fun _ => .bind hexpr fun parameter _ hparameter => .after fun _ => .pure ?_
  exact operandBefore_of_closed (by rw [Expr.isWellShaped, hparameter.1]) rfl rfl

theorem randomPair_yields (d : BinaryDistribution) :
    (randomPair expr d).Yields OperandBefore := by
  refine .after fun _ => .bind hexpr fun first _ hfirst => .after fun _ =>
    .bind hexpr fun second _ hsecond => .after fun _ => .pure ?_
  exact operandBefore_of_closed (by simp [Expr.isWellShaped, hfirst.1, hsecond.1]) rfl rfl

theorem groupRest_yields (bracket : Bracket) (close : Symbol) :
    Yields (do
      let body ← expr
      symbol close
      pure (Expr.group bracket body)) OperandBefore := by
  refine .bind hexpr fun body _ hbody => .after fun _ => .pure ?_
  exact operandBefore_of_closed (by rw [Expr.isWellShaped, hbody.1]) rfl rfl

theorem keywordOperand_yields {n : Nat} {word : Keyword} {r : Reader Expr}
    (h : keywordOperand expr n word = some r) : r.Yields OperandBefore := by
  unfold keywordOperand at h
  -- a quantifier and a conditional are open on the right, all others are closed
  split at h
  · cases h
    exact .pure (operandBefore_of_closed rfl rfl rfl)
  · cases h
    exact .pure (operandBefore_of_closed rfl rfl rfl)
  · cases h
    exact quantified_yields hexpr .universal n
  · cases h
    exact quantified_yields hexpr .existential n
  · cases h
    exact conditional_yields hexpr
  · cases h
    exact switch_yields hexpr n
  · cases h
    exact discrete_yields hexpr n
  · cases h
    exact dirichlet_yields hexpr
  · split at h
    · cases h
      exact random_yields hexpr _
    · cases h
      exact randomPair_yields hexpr _
    · cases h

end Parts

/-! ### Expressions -/

/-- What the three readers of expressions yield, within a bound.  The chain is read behind
    an operand, to which it is linked. -/
structure WithinYields (n : Nat) : Prop where
  expr : (exprWithin n).Yields ExprBefore
  operand : (operandWithin n).Yields OperandBefore
  chain : ∀ e c chain c', OperandBefore e c.next? → chainWithin n c = .ok chain c' →
    Expr.Linked e chain ∧ EndsChain c'.next?

theorem unary_yields {n : Nat} (ih : WithinYields n) (op : UnaryOp) :
    Yields (do pure (Expr.unary op (← operandWithin n))) OperandBefore := by
  refine ih.operand.map fun body next hbody => ⟨⟨?_, rfl⟩, hbody.2⟩
  rw [Expr.isWellShaped, hbody.1.shape, hbody.1.level]
  rfl

theorem operandWithin_succ_yields {n : Nat} (ih : WithinYields n) :
    (operandWithin (n + 1)).Yields OperandBefore := by
  rw [operandWithin]
  refine .after fun next => ?_
  -- by the lexeme that is seen
  split
  · exact .after fun _ => .pure (operandBefore_of_closed rfl rfl rfl)
  · exact .after fun _ => .pure (operandBefore_of_closed rfl rfl rfl)
  · exact .after fun _ => .pure (operandBefore_of_closed rfl rfl rfl)
  · exact .after fun _ => .pure (operandBefore_of_closed rfl rfl rfl)
  · next name => exact .after fun _ => namedOperand_yields ih.expr name n
  · exact .after fun _ => groupRest_yields ih.expr .round _
  · exact .after fun _ => groupRest_yields ih.expr .square _
  · exact .after fun _ => unary_yields ih .not
  · exact .after fun _ => unary_yields ih .minus
  · exact .after fun _ => unary_yields ih .plus
  · next word =>
    split
    · next hr => exact .after fun _ => keywordOperand_yields ih.expr hr
    · exact .unexpected
  · exact .unexpected

/-- An open operand has no operator behind it, so the chain stops there. -/
theorem chainWithin_succ_yields {n : Nat} (ih : WithinYields n) {e : Expr} {c c' : Cursor}
    {chain : List (BinaryOp × Expr)} (he : OperandBefore e c.next?)
    (h : chainWithin (n + 1) c = .ok chain c') : Expr.Linked e chain ∧ EndsChain c'.next? := by
  simp only [chainWithin, bind_eq_ok, peek_eq_ok] at h
  obtain ⟨next, _, ⟨rfl, rfl⟩, h⟩ := h
  cases hop : c.next?.bind BinaryOp.ofLexeme? with
  | none =>
    simp only [hop, pure_eq_ok] at h
    obtain ⟨rfl, rfl⟩ := h
    exact ⟨he.1, hop⟩
  | some op =>
    simp only [hop, bind_eq_ok, pure_eq_ok] at h
    obtain ⟨_, c₁, -, operand, c₂, hoperand, rest, c₃, hrest, rfl, rfl⟩ := h
    obtain ⟨hlinked, hends⟩ := ih.chain operand c₂ rest c₃ (ih.operand _ _ _ hoperand) hrest
    have hclosed : e.isOpen = false := by
      cases hopen : e.isOpen with
      | false => rfl
      | true => cases hop.symm.trans (he.2 hopen)
    exact ⟨⟨he.1, hclosed, hlinked⟩, hends⟩

theorem exprWithin_succ_yields {n : Nat} (ih : WithinYields n) :
    (exprWithin (n + 1)).Yields ExprBefore := by
  intro c e c' h
  simp only [exprWithin, bind_eq_ok, pure_eq_ok] at h
  obtain ⟨first, c₁, hfirst, chain, c₂, hchain, rfl, rfl⟩ := h
  obtain ⟨hlinked, hends⟩ := ih.chain first c₁ chain c₂ (ih.operand _ _ _ hfirst) hchain
  exact ⟨Expr.isWellShaped_assemble hlinked, hends⟩

theorem within_yields (n : Nat) : WithinYields n := by
  induction n with
  | zero =>
    constructor
    · rw [exprWithin]
      exact .unexpected
    · rw [operandWithin]
      exact .unexpected
    · intro e c chain c' _ h
      rw [chainWithin] at h
      exact absurd h unexpected_ne_ok
  | succ n ih =>
    exact ⟨exprWithin_succ_yields ih, operandWithin_succ_yields ih,
      fun _ _ _ _ => chainWithin_succ_yields ih⟩

/-- **An expression that is read is well-shaped.** -/
theorem expression_yields : expression.Yields fun e _ => e.isWellShaped = true :=
  .after fun n => (within_yields n).expr.imp fun _ _ he => he.1

/-! ### Sections and blocks -/

theorem braced_yields {item : Reader α} {P : α → Prop} (hitem : item.Yields fun a _ => P a) :
    (braced item).Yields fun as _ => ∀ a ∈ as, P a :=
  .after fun n => .after fun _ => .bind (itemsToClose_yields hitem n) fun _ _ has =>
    .after fun _ => .pure fun _ => has

theorem condition_yields : condition.Yields fun e _ => e.isWellShaped = true :=
  .bind expression_yields fun _ _ he => .after fun _ => .pure fun _ => he

theorem cpfDecl_yields : cpfDecl.Yields fun d _ => d.body.isWellShaped = true :=
  .after fun _ => .after fun _ => .bind expression_yields fun _ _ he =>
    .after fun _ => .pure fun _ => he

theorem domainSection_yields {word : Keyword} {r : Reader DomainSection}
    (hr : domainSection word = some r) :
    r.Yields fun s _ => ∀ e ∈ s.expressions, e.isWellShaped = true := by
  unfold domainSection at hr
  -- types and variables have no expressions in them
  split at hr
  · cases hr
    exact .after fun _ => .pure (by simp [DomainSection.expressions])
  · cases hr
    exact .after fun _ => .pure (by simp [DomainSection.expressions])
  · cases hr
    refine (braced_yields cpfDecl_yields).map fun decls _ hdecls => ?_
    simpa [DomainSection.expressions] using hdecls
  · cases hr
    refine (braced_yields cpfDecl_yields).map fun decls _ hdecls => ?_
    simpa [DomainSection.expressions] using hdecls
  · cases hr
    refine .after fun _ => .bind expression_yields fun body _ hbody => .after fun _ => .pure ?_
    simpa [DomainSection.expressions] using hbody
  · cases hr
    exact (braced_yields condition_yields).map fun _ _ h => h
  · cases hr
    exact (braced_yields condition_yields).map fun _ _ h => h
  · cases hr
    exact (braced_yields condition_yields).map fun _ _ h => h
  · cases hr

theorem horizon_yields :
    horizon.Yields fun h _ => ∀ e ∈ (InstanceSection.horizon h).expressions,
      e.isWellShaped = true := by
  refine .after fun _ => .after fun conditional => ?_
  split
  · refine .after fun _ => .bind expression_yields fun test _ htest => .after fun _ => .pure ?_
    simpa [InstanceSection.expressions] using htest
  · exact .after fun steps => .after fun _ => .pure (by simp [InstanceSection.expressions])

theorem instanceSection_yields {word : Keyword} {r : Reader InstanceSection}
    (hr : instanceSection word = some r) :
    r.Yields fun s _ => ∀ e ∈ s.expressions, e.isWellShaped = true := by
  unfold instanceSection at hr
  -- only a horizon can have an expression in it
  split at hr
  · cases hr
    exact .after fun _ => .pure (by simp [InstanceSection.expressions])
  · cases hr
    exact .after fun _ => .pure (by simp [InstanceSection.expressions])
  · cases hr
    exact .after fun _ => .pure (by simp [InstanceSection.expressions])
  · cases hr
    exact .after fun _ => .pure (by simp [InstanceSection.expressions])
  · cases hr
    exact .after fun _ => .after fun _ => .after fun _ =>
      .pure (by simp [InstanceSection.expressions])
  · cases hr
    exact horizon_yields.map fun _ _ h => h
  · cases hr
    exact .after fun _ => .pure (by simp [InstanceSection.expressions])
  · cases hr

theorem sections_yields {σ : Type} {body : Keyword → Option (Reader σ)}
    {complete : σ → Reader Unit} {P : σ → Prop}
    (hbody : ∀ word r, body word = some r → r.Yields fun s _ => P s) (n : Nat) :
    (sections body complete n).Yields fun ss _ => ∀ s ∈ ss, P s := by
  induction n with
  | zero => exact .unexpected
  | succ n ih =>
    refine .after fun next => ?_
    split
    · exact .after fun _ => .pure (by simp)
    · next word =>
      split
      · next r hr =>
        refine .after fun _ => .bind (hbody word r hr) fun s _ hs => .after fun _ =>
          ih.map fun ss _ hss => ?_
        simpa using ⟨hs, hss⟩
      · exact .unexpected
    · exact .unexpected

theorem domainBlock_yields :
    domainBlock.Yields fun b _ => ∀ e ∈ (Block.domain b).expressions, e.isWellShaped = true := by
  refine .after fun n => .after fun name => .after fun _ => .after fun needed =>
    .bind (sections_yields (fun _ _ => domainSection_yields) n) fun parts _ hparts =>
      .after fun _ => ?_
  simp only
  split
  · refine .pure fun _ e he => ?_
    obtain ⟨s, hs, he⟩ := List.mem_flatMap.mp he
    exact hparts s hs e he
  · intro c b c' h
    exact absurd h throw_ne_ok

theorem instanceBlock_yields :
    instanceBlock.Yields fun b _ => ∀ e ∈ (Block.problem b).expressions,
      e.isWellShaped = true := by
  refine .after fun n => .after fun name => .after fun _ =>
    .bind (sections_yields (fun _ _ => instanceSection_yields) n) fun parts _ hparts =>
      .after fun _ => .pure fun _ e he => ?_
  obtain ⟨s, hs, he⟩ := List.mem_flatMap.mp he
  exact hparts s hs e he

/-- **A document that is read is well-shaped.** -/
theorem blocks_yields (n : Nat) : (blocks n).Yields fun d _ => d.isWellShaped = true := by
  induction n with
  | zero => exact .unexpected
  | succ n ih =>
    refine .after fun next => ?_
    split
    · exact .pure fun _ => rfl
    · refine .after fun _ => .bind domainBlock_yields fun b _ hb => ih.map fun d _ hd => ?_
      exact Document.isWellShaped_iff.mpr
        (List.forall_mem_cons.mpr ⟨hb, Document.isWellShaped_iff.mp hd⟩)
    · refine .after fun _ => .after fun b => ih.map fun d _ hd => ?_
      exact Document.isWellShaped_iff.mpr
        (List.forall_mem_cons.mpr ⟨by simp [Block.expressions], Document.isWellShaped_iff.mp hd⟩)
    · refine .after fun _ => .bind instanceBlock_yields fun b _ hb => ih.map fun d _ hd => ?_
      exact Document.isWellShaped_iff.mpr
        (List.forall_mem_cons.mpr ⟨hb, Document.isWellShaped_iff.mp hd⟩)
    · exact .unexpected

end Rddl.Reader
