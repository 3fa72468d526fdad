/-
  Rddl/Proofs/Reader/ReadsExpr.lean
  =================================
  **Well-shaped expressions are read as they are written.**

  The main result is `expression_reads`: in front of lexemes that spell a well-shaped
  tree the reader returns that tree, provided that what follows cannot belong to it.
  The induction is on the bound of the readers.  A bound of twice the number of lexemes
  is enough for an operand, and one more for an expression, which starts with an operand
  without taking a lexeme.
-/
import Rddl.Proofs.Reader.Reads
import Rddl.Proofs.Syntax.Shape

namespace Rddl.Reader

/-! ### Where an expression ends -/

/-- Whether a name that is an operand ends before a lexeme. -/
def endsOperand : Option Lexeme → Bool
  | some (.symbol .leftParen) => false
  | some (.symbol .leftBracket) => false
  | some (.symbol .underscore) => false
  | _ => true

/-- Whether an expression ends before a lexeme: no operator goes on with it either. -/
def endsExpr (next : Option Lexeme) : Bool :=
  endsOperand next && (next.bind BinaryOp.ofLexeme?).isNone

theorem endsOperand_of_endsExpr {next : Option Lexeme} (h : endsExpr next = true) :
    endsOperand next = true := (Bool.and_eq_true_iff.mp h).1

/-! ### Terms -/

section Terms

variable {ls rest : List Lexeme} {n : Nat}

theorem starts_of_termWritten {t : Term} (h : t.Written ls) :
    ∃ x xs, ls = x :: xs ∧ ∀ m, x ≠ .symbol m := by
  cases h with
  | «variable» name => exact ⟨_, _, rfl, fun _ => Lexeme.noConfusion⟩
  | enumValue name => exact ⟨_, _, rfl, fun _ => Lexeme.noConfusion⟩
  | fluent name => exact ⟨_, _, rfl, fun _ => Lexeme.noConfusion⟩
  | applied name hargs => exact ⟨_, _, rfl, fun _ => Lexeme.noConfusion⟩

/-- What may follow a term: no argument list. -/
def EndsTerm (next : Option Lexeme) : Prop := next ≠ some (.symbol .leftParen)

theorem arguments_reads {args : List Term} (h : LooseList Term.Written args ls)
    (hn : ls.length < n)
    (hterm : ∀ t l, l.length ≤ ls.length → Term.Written t l →
      ReadsWhere (termWithin n) EndsTerm t l) :
    Reads (looseList (termWithin n) .rightParen n) (ls ++ [.symbol .rightParen]) rest args := by
  have hterms := h.imp fun t l hl ht => And.intro (hterm t l hl ht) (starts_of_termWritten ht)
  exact looseList_reads hterms hn (by simp [EndsTerm]) (by simp [EndsTerm]) (by simp)

theorem termWithin_reads {t : Term} (h : t.Written ls) (hn : ls.length ≤ n) :
    ReadsWhere (termWithin n) EndsTerm t ls := by
  induction n generalizing t ls with
  | zero =>
    obtain ⟨x, xs, rfl, -⟩ := starts_of_termWritten h
    simp at hn
  | succ n ih =>
    intro rest hrest
    cases h with
    | «variable» name => exact .seeing (.andThen .advance (.pure _))
    | enumValue name => exact .seeing (.andThen .advance (.pure _))
    | fluent name => exact .seeing (.andThen .advance (.refusing hrest (.pure _)))
    | applied name hargs =>
      simp only [List.length_cons, List.length_append, List.length_nil] at hn
      refine .seeing (.andThen .advance (.accepting (.returning
        (arguments_reads hargs (by omega) ?_) _)))
      intro t l hl ht
      exact ih ht (by omega)

theorem occurrenceTail_reads (name : String) {args : List Term}
    (h : LooseList Term.Written args ls) (hn : ls.length < n) :
    Reads (occurrenceTail name n) (.symbol .leftParen :: (ls ++ [.symbol .rightParen])) rest
      ⟨name, some args⟩ := by
  refine .accepting (.returning (arguments_reads h hn ?_) _)
  intro t l hl ht
  exact termWithin_reads ht (Nat.le_trans hl (Nat.le_of_lt hn))

theorem label_reads {name : String} (h : LabelWritten name ls) : Reads label ls rest name := by
  cases h with
  | ident => exact .take rfl
  | enumValue => exact .take rfl

theorem typedVar_reads {v : TypedVar} (h : v.Written ls) : Reads typedVar ls rest v := by
  cases h with
  | mk name type =>
    exact .andThen (.variableName name) (.andThen (.symbol .colon) (.returning (.ident type) _))

/-- The variables in braces, whatever is read behind them. -/
theorem typedVars_reads {β : Type} {f : List TypedVar → Reader β} {b : β} {vars : List TypedVar}
    {vs : List Lexeme} (hvars : CommaList TypedVar.Written vars vs) (hn : vs.length < n)
    (h : Reads (f vars) ls rest b) :
    Reads (typedVars n >>= f)
      (.symbol .underscore :: .symbol .leftCurly :: (vs ++ .symbol .rightCurly :: ls)) rest b := by
  have hlist : CommaList (ReadsWhere typedVar fun _ => True) vars vs :=
    hvars.imp fun _ _ _ hv _ _ => typedVar_reads hv
  have hbraced : Reads (typedVars n)
      (.symbol .underscore :: .symbol .leftCurly :: (vs ++ [.symbol .rightCurly])) (ls ++ rest)
      vars := by
    refine .andThen (.symbol .underscore) (.andThen (.symbol .leftCurly) (.bind ?_
      (.returning (.symbol .rightCurly) fun _ => vars)))
    exact commaList_reads hlist hn trivial trivial (by simp)
  simpa using hbraced.bind h

end Terms

/-! ### Parts of operands -/

/-- A reader returns every well-shaped tree that is spelled with fewer than `k` lexemes. -/
def ReadsShorter (expr : Reader Expr) (k : Nat) : Prop :=
  ∀ (e : Expr) (ls rest : List Lexeme), e.Written ls → e.isWellShaped = true → ls.length < k →
    endsExpr rest.head? = true → Reads expr ls rest e

section Operands

variable {expr : Reader Expr} {k n : Nat} (hexpr : ReadsShorter expr k) {rest : List Lexeme}
include hexpr

theorem subject_reads {e : Expr} {ls : List Lexeme} (h : e.Written ls)
    (hshape : e.isWellShaped = true) (hsubject : e.isSubject = true) (hk : ls.length < k)
    (hrest : endsExpr rest.head? = true) : Reads (subject expr) ls rest e := by
  refine .ending (hexpr e ls rest h hshape hk hrest) ?_
  rw [if_pos hsubject]
  exact .pure e

theorem call_reads (name : String) {args : List Expr} {ls : List Lexeme}
    (h : CommaList Expr.Written args ls) (hshape : Expr.areWellShaped args = true)
    (hk : ls.length < k) (hn : ls.length < n) :
    Reads (namedOperand expr name n) (.symbol .leftBracket :: (ls ++ [.symbol .rightBracket])) rest
      (.call name args) := by
  have hargs : CommaList (ReadsWhere expr fun next => endsExpr next = true) args ls :=
    (h.carrying (Expr.areWellShaped_iff.mp hshape)).imp fun e l hl he rest hrest =>
      hexpr e l rest he.2 he.1 (by omega) hrest
  refine .seeing (.andThen .advance (.bind ?_ (.returning (.symbol .rightBracket)
    fun _ => Expr.call name args)))
  exact commaList_reads hargs hn rfl rfl (by simp)

theorem aggregated_reads (name : String) {vars : List TypedVar} {body : Expr}
    {vs ls : List Lexeme} (hvars : CommaList TypedVar.Written vars vs) (h : body.Written ls)
    (hshape : body.isWellShaped = true) (hk : ls.length < k) (hn : vs.length < n)
    (hrest : endsExpr rest.head? = true) :
    Reads (namedOperand expr name n)
      (.symbol .underscore :: .symbol .leftCurly :: (vs ++ .symbol .rightCurly :: ls)) rest
      (.aggregated name vars body) :=
  .seeing (typedVars_reads hvars hn (.returning (hexpr body ls rest h hshape hk hrest) _))

theorem conditional_reads {condition yes no : Expr} {cs ys ns : List Lexeme}
    (hcondition : condition.Written cs) (hyes : yes.Written ys) (hno : no.Written ns)
    (hshape : (Expr.conditional condition yes no).isWellShaped = true)
    (hk : cs.length + ys.length + ns.length < k) (hrest : endsExpr rest.head? = true) :
    Reads (conditional expr)
      (.symbol .leftParen ::
        (cs ++ .symbol .rightParen :: .keyword .thenWord :: (ys ++ .keyword .elseWord :: ns)))
      rest (.conditional condition yes no) := by
  simp only [Expr.isWellShaped, Bool.and_eq_true] at hshape
  obtain ⟨⟨hcs, hys⟩, hns⟩ := hshape
  exact .andThen (.symbol .leftParen)
    (.bind (hexpr _ _ _ hcondition hcs (by omega) rfl) (.andThen (.symbol .rightParen)
      (.andThen (.keyword .thenWord) (.bind (hexpr _ _ _ hyes hys (by omega) rfl)
        (.andThen (.keyword .elseWord)
          (.returning (hexpr _ _ _ hno hns (by omega) hrest) _))))))

theorem switchCase_reads {c : Case} {ls : List Lexeme} (h : c.Written ls)
    (hshape : c.isWellShaped = true) (hk : ls.length ≤ k) :
    ReadsWhere (switchCase expr) (fun next => endsExpr next = true) c ls := by
  intro rest hrest
  cases h with
  | value hsubject hguard hbody =>
    simp only [Case.isWellShaped, Bool.and_eq_true] at hshape
    simp only [List.length_cons, List.length_append] at hk
    exact .seeing (.andThen .advance (.bind (subject_reads hexpr hguard hshape.1 hsubject
      (by omega) rfl) (.andThen (.symbol .colon)
        (.returning (hexpr _ _ _ hbody hshape.2 (by omega) hrest) _))))
  | default hbody =>
    simp only [Case.isWellShaped] at hshape
    simp only [List.length_cons] at hk
    exact .seeing (.andThen .advance (.andThen (.symbol .colon)
      (.returning (hexpr _ _ _ hbody hshape (by omega) hrest) _)))

theorem switch_reads {on : Expr} {cases : List Case} {ss ks : List Lexeme}
    (hsubject : on.isSubject = true) (h : on.Written ss) (hcases : CommaList Case.Written cases ks)
    (hshape : (Expr.switch on cases).isWellShaped = true) (hk : ss.length + ks.length < k)
    (hn : ks.length < n) :
    Reads (switch expr n)
      (.symbol .leftParen ::
        (ss ++ .symbol .rightParen :: .symbol .leftCurly :: (ks ++ [.symbol .rightCurly])))
      rest (.switch on cases) := by
  simp only [Expr.isWellShaped, Bool.and_eq_true] at hshape
  have hlist : CommaList (ReadsWhere (switchCase expr) fun next => endsExpr next = true)
      cases ks :=
    (hcases.carrying (Case.areWellShaped_iff.mp hshape.2)).imp fun c l hl hc =>
      switchCase_reads hexpr hc.2 hc.1 (by omega)
  refine .andThen (.symbol .leftParen) (.bind (subject_reads hexpr h hshape.1 hsubject (by omega)
    rfl) (.andThen (.symbol .rightParen) (.andThen (.symbol .leftCurly) (.bind ?_
      (.returning (.symbol .rightCurly) fun _ => Expr.switch on cases)))))
  exact commaList_reads hlist hn rfl rfl (by simp)

theorem firstOutcome_reads {o : Outcome} {ls : List Lexeme} (h : o.FirstWritten ls)
    (hshape : o.isWellShaped = true) (hk : ls.length ≤ k) (hrest : endsExpr rest.head? = true) :
    Reads (firstOutcome expr) ls rest o := by
  cases h with
  | weighted hlabel hweight =>
    simp only [List.length_cons, List.length_append] at hk
    have hbody := hexpr _ _ rest hweight hshape (by omega) hrest
    obtain ⟨x, xs, rfl, hx, -⟩ := hweight.starts
    refine .bind (label_reads hlabel) (.andThen (.symbol .colon) (.refusing ?_
      (.returning hbody _)))
    simpa using hx
  | otherwise hlabel =>
    exact .bind (label_reads hlabel) (.andThen (.symbol .colon) (.accepting (.pure _)))

theorem outcome_reads {o : Outcome} {ls : List Lexeme} (h : o.Written ls)
    (hshape : o.isWellShaped = true) (hk : ls.length ≤ k) :
    ReadsWhere (outcome expr) (fun next => endsExpr next = true) o ls := by
  intro rest hrest
  cases h with
  | weighted hlabel hweight =>
    simp only [List.length_cons, List.length_append] at hk
    exact .bind (label_reads hlabel) (.andThen (.symbol .colon)
      (.returning (hexpr _ _ _ hweight hshape (by omega) hrest) _))

theorem outcomes_reads {os : List Outcome} {ls : List Lexeme} (h : CommaTail Outcome.Written os ls)
    (hshape : ∀ o ∈ os, o.isWellShaped = true) (hk : ls.length ≤ k) :
    CommaTail (ReadsWhere (outcome expr) fun next => endsExpr next = true) os ls :=
  (h.carrying hshape).imp fun _ _ hl ho =>
    outcome_reads hexpr ho.2 ho.1 (Nat.le_trans (Nat.le_of_lt hl) hk)

theorem discrete_reads (type : String) {first : Outcome} {others : List Outcome}
    {fs rs : List Lexeme} (hfirst : first.FirstWritten fs)
    (hothers : CommaTail Outcome.Written others rs)
    (hshape : (Expr.discrete type (first :: others)).isWellShaped = true)
    (hk : fs.length + rs.length < k) (hn : rs.length < n) :
    Reads (discrete expr n)
      (.symbol .leftParen :: .ident type :: .symbol .comma ::
        (fs ++ (rs ++ [.symbol .rightParen])))
      rest (.discrete type (first :: others)) := by
  simp only [Expr.isWellShaped, Outcome.areWellShaped, Bool.and_eq_true] at hshape
  have htail := outcomes_reads hexpr hothers (Outcome.areWellShaped_iff.mp hshape.2) (by omega)
  have hends : endsExpr ((rs ++ [Lexeme.symbol .rightParen]) ++ rest).head? = true := by
    rw [List.append_assoc]
    exact follows_of_commaTail htail rfl rfl
  refine .andThen (.symbol .leftParen) (.andThen (.ident type) (.andThen (.symbol .comma)
    (.bind (firstOutcome_reads hexpr hfirst hshape.1 (by omega) hends) (.bind ?_
      (.returning (.symbol .rightParen) fun _ => Expr.discrete type (first :: others))))))
  exact commaTail_reads htail hn rfl rfl (by simp)

theorem dirichlet_reads (type : String) {parameter : Expr} {ls : List Lexeme}
    (h : parameter.Written ls) (hshape : parameter.isWellShaped = true) (hk : ls.length < k) :
    Reads (dirichlet expr)
      (.symbol .leftParen :: .ident type :: .symbol .comma :: (ls ++ [.symbol .rightParen])) rest
      (.dirichlet type parameter) :=
  .andThen (.symbol .leftParen) (.andThen (.ident type) (.andThen (.symbol .comma)
    (.bind (hexpr _ _ _ h hshape hk rfl)
      (.returning (.symbol .rightParen) fun _ => Expr.dirichlet type parameter))))

theorem random_reads (distribution : UnaryDistribution) {parameter : Expr} {ls : List Lexeme}
    (h : parameter.Written ls) (hshape : parameter.isWellShaped = true) (hk : ls.length < k) :
    Reads (random expr distribution) (.symbol .leftParen :: (ls ++ [.symbol .rightParen])) rest
      (.random distribution parameter) :=
  .andThen (.symbol .leftParen) (.bind (hexpr _ _ _ h hshape hk rfl)
    (.returning (.symbol .rightParen) fun _ => Expr.random distribution parameter))

theorem randomPair_reads (distribution : BinaryDistribution) {first second : Expr}
    {fs ss : List Lexeme} (hfirst : first.Written fs) (hsecond : second.Written ss)
    (hshape : (Expr.randomPair distribution first second).isWellShaped = true)
    (hk : fs.length + ss.length < k) :
    Reads (randomPair expr distribution)
      (.symbol .leftParen :: (fs ++ .symbol .comma :: (ss ++ [.symbol .rightParen]))) rest
      (.randomPair distribution first second) := by
  simp only [Expr.isWellShaped, Bool.and_eq_true] at hshape
  exact .andThen (.symbol .leftParen) (.bind (hexpr _ _ _ hfirst hshape.1 (by omega) rfl)
    (.andThen (.symbol .comma) (.bind (hexpr _ _ _ hsecond hshape.2 (by omega) rfl)
      (.returning (.symbol .rightParen) fun _ => Expr.randomPair distribution first second))))

end Operands

/-! ### Expressions -/

structure WithinReads (n : Nat) : Prop where
  expr : ∀ (e : Expr) (ls rest : List Lexeme), e.Written ls → e.isWellShaped = true →
    2 * ls.length + 1 ≤ n → endsExpr rest.head? = true → Reads (exprWithin n) ls rest e
  chain : ∀ (e : Expr) (chain : List (BinaryOp × Expr)) (ls rest : List Lexeme),
    e.Linked chain → Items LinkWritten chain ls → 2 * ls.length + 1 ≤ n →
      endsExpr rest.head? = true → Reads (chainWithin n) ls rest chain
  operand : ∀ (e : Expr) (ls rest : List Lexeme), e.Written ls → e.IsOperand →
    2 * ls.length ≤ n → endsOperand rest.head? = true →
      (e.isOpen = true → endsExpr rest.head? = true) → Reads (operandWithin n) ls rest e

theorem WithinReads.shorter {n k : Nat} (h : WithinReads n) (hk : 2 * k ≤ n + 1) :
    ReadsShorter (exprWithin n) k := by
  intro e ls rest hwritten hshape hlength hrest
  exact h.expr e ls rest hwritten hshape (by omega) hrest

/-- A fluent ends where no argument list, index or variables follow. -/
theorem occurrence_reads {expr : Reader Expr} {n : Nat} {o : Occurrence} {name : String}
    {ls rest : List Lexeme} (h : o.Written (.ident name :: ls)) (hn : ls.length < n)
    (hrest : endsOperand rest.head? = true) :
    Reads (namedOperand expr name n) ls rest (.occurrence o) := by
  cases h with
  | plain =>
    -- what follows does not open an argument list, so the name stands alone
    have htail : Reads (occurrenceTail name n) [] rest ⟨name, none⟩ := by
      refine .refusing ?_ (.pure _)
      intro hparen
      rw [List.nil_append] at hparen
      simp [hparen, endsOperand] at hrest
    refine .before .peek ?_
    rw [List.nil_append]
    split
    · next hbracket => simp [hbracket, endsOperand] at hrest
    · next hunderscore => simp [hunderscore, endsOperand] at hrest
    · exact .returning htail _
  | applied _ hargs =>
    simp only [List.length_cons, List.length_append, List.length_nil] at hn
    exact .seeing (.returning (occurrenceTail_reads name hargs (by omega)) _)

/-- Quantifiers differ in their keyword only. -/
theorem quantified_reads {expr : Reader Expr} {k n : Nat} (hexpr : ReadsShorter expr k)
    (quantifier : Quantifier) {vars : List TypedVar} {body : Expr} {vs ls rest : List Lexeme}
    (hvars : CommaList TypedVar.Written vars vs) (h : body.Written ls)
    (hshape : body.isWellShaped = true) (hk : ls.length < k) (hn : vs.length < n)
    (hrest : endsExpr rest.head? = true) :
    ∃ read, keywordOperand expr n quantifier.keyword = some read ∧ Reads read
      (.symbol .underscore :: .symbol .leftCurly :: (vs ++ .symbol .rightCurly :: ls)) rest
      (.quantified quantifier vars body) := by
  have hbody := hexpr body ls rest h hshape hk hrest
  cases quantifier with
  | universal => exact ⟨_, rfl, typedVars_reads hvars hn (.returning hbody _)⟩
  | existential => exact ⟨_, rfl, typedVars_reads hvars hn (.returning hbody _)⟩

/-- An operand that starts with a keyword. -/
theorem keyword_operand_reads {n : Nat} {w : Keyword} {read : Reader Expr} {e : Expr}
    {ls rest : List Lexeme} (hword : keywordOperand (exprWithin n) n w = some read)
    (h : Reads read ls rest e) : Reads (operandWithin (n + 1)) (.keyword w :: ls) rest e := by
  refine .seeing ?_
  simp only [hword]
  exact .andThen .advance h

theorem operandWithin_succ_reads {n : Nat} (ih : WithinReads n) {e : Expr}
    {ls rest : List Lexeme} (h : e.Written ls) (he : e.IsOperand) (hn : 2 * ls.length ≤ n + 1)
    (hrest : endsOperand rest.head? = true) (hopen : e.isOpen = true → endsExpr rest.head? = true) :
    Reads (operandWithin (n + 1)) ls rest e := by
  -- the length is kept apart: the cases below replace `ls` by what spells the operand
  obtain ⟨k, hk⟩ : ∃ k, k = ls.length := ⟨_, rfl⟩
  rw [← hk] at hn
  have hexpr := ih.shorter hn
  have hshape := he.shape
  cases h with
  -- one lexeme
  | enumValue name => exact .seeing (.andThen .advance (.pure _))
  | «variable» name => exact .seeing (.andThen .advance (.pure _))
  | integer value => exact .seeing (.andThen .advance (.pure _))
  | real value => exact .seeing (.andThen .advance (.pure _))
  | truth value => cases value <;> exact keyword_operand_reads rfl (.pure _)
  -- a name, of a fluent or of a function
  | occurrence ho =>
    cases ho with
    | plain name =>
      simp only [List.length_cons, List.length_nil] at hk
      refine .seeing (.andThen .advance (occurrence_reads (.plain name) ?_ hrest))
      rw [List.length_nil]
      omega
    | applied name hargs =>
      simp only [List.length_cons, List.length_append, List.length_nil] at hk
      refine .seeing (.andThen .advance (occurrence_reads (.applied name hargs) ?_ hrest))
      simp only [List.length_cons, List.length_append, List.length_nil]
      omega
  | group bracket hbody =>
    simp only [List.length_cons, List.length_append, List.length_nil] at hk
    have hread := fun rest hrest => hexpr _ _ rest hbody hshape (by omega) hrest
    cases bracket with
    | round =>
      exact .seeing (.andThen .advance (.bind (hread _ rfl) (.returning (.symbol .rightParen) _)))
    | square =>
      exact .seeing (.andThen .advance (.bind (hread _ rfl) (.returning (.symbol .rightBracket) _)))
  | call function hargs =>
    simp only [List.length_cons, List.length_append, List.length_nil] at hk
    exact .seeing (.andThen .advance (call_reads hexpr function hargs hshape (by omega) (by omega)))
  -- an operation is no operand unless it is in brackets
  | binary op _ _ => cases he.level
  | unary op hbody =>
    simp only [List.length_cons] at hk
    simp only [Expr.isWellShaped, Bool.and_eq_true, Option.isNone_iff_eq_none] at hshape
    have hread := ih.operand _ _ rest hbody ⟨hshape.1, hshape.2⟩ (by omega) hrest hopen
    cases op <;> exact .seeing (.andThen .advance (.returning hread _))
  -- open to the right: what follows has to end the whole expression
  | quantified quantifier hvars hbody =>
    simp only [List.length_cons, List.length_append] at hk
    obtain ⟨read, hword, hread⟩ := quantified_reads (n := n) hexpr quantifier hvars hbody hshape
      (by omega) (by omega) (hopen rfl)
    exact keyword_operand_reads hword hread
  | aggregated operator hvars hbody =>
    simp only [List.length_cons, List.length_append] at hk
    exact .seeing (.andThen .advance
      (aggregated_reads hexpr operator hvars hbody hshape (by omega) (by omega) (hopen rfl)))
  | conditional hcondition hyes hno =>
    simp only [List.length_cons, List.length_append] at hk
    exact keyword_operand_reads rfl
      (conditional_reads hexpr hcondition hyes hno hshape (by omega) (hopen rfl))
  -- closed by a brace or a bracket, so that anything may follow
  | switch hsubject hwritten hcases =>
    simp only [List.length_cons, List.length_append, List.length_nil] at hk
    exact keyword_operand_reads rfl
      (switch_reads hexpr hsubject hwritten hcases hshape (by omega) (by omega))
  | random distribution hparameter =>
    simp only [List.length_cons, List.length_append, List.length_nil] at hk
    have hread : Reads (random (exprWithin n) distribution) _ rest _ :=
      random_reads hexpr distribution hparameter hshape (by omega)
    cases distribution <;> exact keyword_operand_reads rfl hread
  | randomPair distribution hfirst hsecond =>
    simp only [List.length_cons, List.length_append, List.length_nil] at hk
    have hread : Reads (randomPair (exprWithin n) distribution) _ rest _ :=
      randomPair_reads hexpr distribution hfirst hsecond hshape (by omega)
    cases distribution <;> exact keyword_operand_reads rfl hread
  | dirichlet type hparameter =>
    simp only [List.length_cons, List.length_append, List.length_nil] at hk
    exact keyword_operand_reads rfl (dirichlet_reads hexpr type hparameter hshape (by omega))
  | discrete type hfirst hothers =>
    simp only [List.length_cons, List.length_append, List.length_nil] at hk
    exact keyword_operand_reads rfl
      (discrete_reads hexpr type hfirst hothers hshape (by omega) (by omega))

/-- Each operand of a chain ends before the operator behind it, and the last one before
    what follows the chain. -/
theorem operand_reads {n : Nat} (ih : WithinReads n) {e : Expr}
    {chain : List (BinaryOp × Expr)} {ls cs rest : List Lexeme} (h : e.Written ls)
    (hlinked : e.Linked chain) (hchain : Items LinkWritten chain cs) (hn : 2 * ls.length ≤ n)
    (hrest : endsExpr rest.head? = true) : Reads (operandWithin n) ls (cs ++ rest) e := by
  cases hchain with
  | nil =>
    exact ih.operand e ls rest h hlinked hn (endsOperand_of_endsExpr hrest) fun _ => hrest
  | @cons link _ _ _ hlink _ =>
    obtain ⟨l, rfl, -⟩ := hlink
    refine ih.operand e ls _ h hlinked.isOperand hn ?_ ?_
    · cases link.1 <;> rfl
    · -- an open operand would take up the operator, and there is none before another link
      intro hopen
      rw [hlinked.2.1] at hopen
      cases hopen

theorem chainWithin_succ_reads {n : Nat} (ih : WithinReads n) {e : Expr}
    {chain : List (BinaryOp × Expr)} {ls rest : List Lexeme} (hlinked : e.Linked chain)
    (h : Items LinkWritten chain ls) (hn : 2 * ls.length + 1 ≤ n + 1)
    (hrest : endsExpr rest.head? = true) : Reads (chainWithin (n + 1)) ls rest chain := by
  cases h with
  | nil =>
    refine .before .peek ?_
    -- no operator follows, so the chain ends here
    have hnone : (rest.head?.bind BinaryOp.ofLexeme?) = none :=
      Option.isNone_iff_eq_none.mp (Bool.and_eq_true_iff.mp hrest).2
    simp only [List.nil_append, hnone]
    exact .pure []
  | @cons link chain' _ cs hlink hchain =>
    obtain ⟨op, operand⟩ := link
    obtain ⟨l, rfl, hoperand⟩ := hlink
    simp only [List.length_cons, List.length_append] at hn
    -- the operand is linked to the rest of the chain, so it does not take up what follows
    obtain ⟨-, -, hnext⟩ := hlinked
    refine .seeing ?_
    simp only [Option.bind_some, BinaryOp.ofLexeme?_eq_some.mpr rfl]
    exact .andThen .advance (.bind (operand_reads ih hoperand hnext hchain (by omega) hrest)
      (.returning (ih.chain operand chain' cs rest hnext hchain (by omega) hrest) _))

/-- A well-shaped tree is read as its chain and put together from it. -/
theorem exprWithin_succ_reads {n : Nat} (ih : WithinReads n) {e : Expr} {ls rest : List Lexeme}
    (h : e.Written ls) (hshape : e.isWellShaped = true) (hn : 2 * ls.length + 1 ≤ n + 1)
    (hrest : endsExpr rest.head? = true) : Reads (exprWithin (n + 1)) ls rest e := by
  obtain ⟨fs, cs, rfl, hfirst, hchain⟩ := Expr.exists_chain_written h
  have hlinked := Expr.linked_links hshape
  have hpositive : 0 < fs.length := by
    obtain ⟨x, xs, rfl, -⟩ := hfirst.starts
    simp
  simp only [List.length_append] at hn
  have hread : Reads (exprWithin (n + 1)) (fs ++ cs) rest (Expr.assemble e.first e.links) :=
    .bind (operand_reads ih hfirst hlinked hchain (by omega) hrest)
      (.returning (ih.chain e.first e.links cs rest hlinked hchain (by omega) hrest) _)
  rwa [Expr.assemble_links hshape] at hread

theorem within_reads (n : Nat) : WithinReads n := by
  induction n with
  | zero =>
    constructor
    · intro e ls rest _ _ hn
      simp at hn
    · intro e chain ls rest _ _ hn
      simp at hn
    · intro e ls rest h _ hn
      obtain ⟨x, xs, rfl, -⟩ := h.starts
      simp at hn
  | succ n ih =>
    exact ⟨fun _ _ _ => exprWithin_succ_reads ih, fun _ _ _ _ => chainWithin_succ_reads ih,
      fun _ _ _ => operandWithin_succ_reads ih⟩

/-- **A well-shaped tree is read as it is written.** -/
theorem expression_reads {e : Expr} {ls rest : List Lexeme} (h : e.Written ls)
    (hshape : e.isWellShaped = true) (hrest : endsExpr rest.head? = true) :
    Reads expression ls rest e := by
  refine .before .bound ?_
  refine (within_reads _).expr e ls rest h hshape ?_ hrest
  simp only [List.length_append]
  omega

end Rddl.Reader
