/-
  Rddl/Proofs/Grammar/Expr.lean
  =============================
  **Written expressions are phrases of the grammar.**

  The lexemes that spell a term, an expression or one of their parts are the yield of
  a derivation tree whose value is the datum of that part.  Expressions are taken by
  strong induction on the number of their lexemes, since every part of one is shorter;
  `Expr.Written.derives` is the result.
-/
import Rddl.Expr.Tree
import Rddl.Proofs.Grammar.Value

namespace Rddl

open Nonterminal

/-! ### Data of lists -/

theorem Term.data_eq_map (ts : List Term) : Term.data ts = ts.map Term.datum := by
  induction ts with
  | nil => rfl
  | cons t ts ih => rw [Term.data, ih, List.map_cons]

theorem Expr.data_eq_map (es : List Expr) : Expr.data es = es.map Expr.datum := by
  induction es with
  | nil => rfl
  | cons e es ih => rw [Expr.data, ih, List.map_cons, Expr.datum]

theorem Case.data_eq_map (cs : List Case) : Case.data cs = cs.map Case.datum := by
  induction cs with
  | nil => rfl
  | cons c cs ih => rw [Case.data, ih, List.map_cons]

theorem Outcome.data_eq_map (os : List Outcome) : Outcome.data os = os.map Outcome.datum := by
  induction os with
  | nil => rfl
  | cons o os ih => rw [Outcome.data, ih, List.map_cons]

/-! ### Terms and occurrences -/

theorem derives_pvarExpr (name : String) :
    Derives pvarExpr.part [.ident name]
      (.datum (.tuple [.text "pvar_expr", .tuple [.text name, .absent]])) :=
  .phrase (by decide) (.ident name .nil) rfl

theorem derives_pvarExpr_applied (name : String) {args : Datum} {ls : List Lexeme}
    (h : Derives termList.part ls (.datum args)) :
    Derives pvarExpr.part (.ident name :: .symbol .leftParen :: (ls ++ [.symbol .rightParen]))
      (.datum (.tuple [.text "pvar_expr", .tuple [.text name, args]])) := by
  refine .phrase ?_ (.ident name (.mark .leftParen (.cons h (.mark .rightParen .nil)))) rfl
  decide

theorem Term.datum_ne_absent (t : Term) : t.datum ≠ .absent := by
  cases t <;> simp [Term.datum]

theorem derives_termList {args : List Term} {ls : List Lexeme}
    (h : LooseList (fun t l => Derives term.part l (.datum t.datum)) args ls) :
    Derives termList.part ls (.datum (.list (Term.data args))) := by
  rw [Term.data_eq_map]
  exact .looseList rfl rfl Term.datum_ne_absent h

theorem Term.Written.derives {t : Term} {ls : List Lexeme} (h : t.Written ls) :
    Derives term.part ls (.datum t.datum) := by
  induction hn : ls.length using Nat.strong_induction_on generalizing t ls with
  | _ n ih =>
    cases h with
    | «variable» name => exact .phrase (by decide) (.variableName name .nil) rfl
    | enumValue name => exact .phrase (by decide) (.enumValue name .nil) rfl
    | fluent name => exact .phrase (by decide) (.single (derives_pvarExpr name)) rfl
    | applied name hargs =>
      have hterms := hargs.imp fun t l hl ht =>
        ih l.length (by simp only [List.length_cons, List.length_append] at hn; omega) ht rfl
      exact .phrase (by decide)
        (.single (derives_pvarExpr_applied name (derives_termList hterms))) rfl

theorem Occurrence.Written.derives {o : Occurrence} {ls : List Lexeme} (h : o.Written ls) :
    Derives pvarExpr.part ls (.datum o.tree) := by
  cases h with
  | plain name => exact derives_pvarExpr name
  | applied name hargs =>
    exact derives_pvarExpr_applied name (derives_termList (hargs.imp fun _ _ _ ht => ht.derives))

theorem TypedVar.Written.derives {v : TypedVar} {ls : List Lexeme} (h : v.Written ls) :
    Derives typedVar.part ls (.datum v.datum) := by
  cases h with
  | mk name type =>
    exact .phrase (by decide)
      (.variableName name (.mark .colon (.ident type .nil))) rfl

theorem derives_typedVarList {vars : List TypedVar} {ls : List Lexeme}
    (h : CommaList TypedVar.Written vars ls) :
    Derives typedVarList.part ls (.datum (.list (vars.map TypedVar.datum))) :=
  .commaList rfl rfl (h.imp fun _ _ _ hv => hv.derives)

theorem LabelWritten.derives {label : String} {ls : List Lexeme} (h : LabelWritten label ls) :
    Derives lconst.part ls (.datum (.text label)) := by
  cases h with
  | ident => exact .phrase (by decide) (.ident label .nil) rfl
  | enumValue => exact .phrase (by decide) (.enumValue label .nil) rfl

theorem derives_boolType (value : Bool) :
    Derives boolType.part [.keyword (truthKeyword value)] (.datum (.truth value)) := by
  cases value with
  | true => exact .phrase (by decide) (.word .trueWord .nil) rfl
  | false => exact .phrase (by decide) (.word .falseWord .nil) rfl

/-! ### Phrases of expressions -/

/-- The kind of phrase of an operation. -/
def BinaryOp.phrase : BinaryOp → Nonterminal
  | .equal | .unequal | .greater | .greaterEq | .less | .lessEq => relationalExpr
  | .plus | .minus | .times | .divide => numericalExpr
  | _ => booleanExpr

theorem BinaryOp.body_mem (op : BinaryOp) : infixBody op.symbol ∈ op.phrase.bodies := by
  cases op <;> decide

def UnaryOp.phrase : UnaryOp → Nonterminal
  | .not => booleanExpr
  | .minus | .plus => numericalExpr

theorem UnaryOp.body_mem (op : UnaryOp) : [.mark op.symbol, expr.part] ∈ op.phrase.bodies := by
  cases op <;> decide

theorem UnaryDistribution.body_mem (d : UnaryDistribution) :
    randomBody d.keyword ∈ randomvarExpr.bodies := by
  cases d <;> decide

theorem BinaryDistribution.body_mem (d : BinaryDistribution) :
    randomPairBody d.keyword ∈ randomvarExpr.bodies := by
  cases d <;> decide

theorem Quantifier.body_mem (q : Quantifier) :
    scopedBody (.word q.keyword) ∈ quantifierExpr.bodies := by
  cases q <;> decide

theorem Bracket.body_mem (b : Bracket) :
    [.mark b.opening, expr.part, .mark b.closing] ∈ groupExpr.bodies := by
  cases b <;> decide

def Expr.phrase : Expr → Nonterminal
  | .enumValue _ => penumExpr
  | .variable _ => paramExpr
  | .occurrence _ => pvarExpr
  | .group .. => groupExpr
  | .call .. => functionExpr
  | .binary op .. => op.phrase
  | .unary op _ => op.phrase
  | .truth _ => booleanExpr
  | .integer _ | .real _ => numericalExpr
  | .quantified .. => quantifierExpr
  | .aggregated .. => aggregationExpr
  | .conditional .. | .switch .. => controlExpr
  | .random .. | .randomPair .. | .dirichlet .. | .discrete .. => randomvarExpr

theorem Expr.phrase_mem_bodies (e : Expr) : [e.phrase.part] ∈ expr.bodies := by
  cases e with
  | binary op _ _ => cases op <;> simp [phrase, BinaryOp.phrase, bodies]
  | unary op _ => cases op <;> simp [phrase, UnaryOp.phrase, bodies]
  | _ => simp [phrase, bodies]

/-- What a switch is on is a phrase of its own, with the same parts as an expression. -/
theorem Expr.phrase_mem_caseBodies {e : Expr} (h : e.isSubject = true) :
    [e.phrase.part] ∈ caseExpr.bodies := by
  cases e with
  | binary op _ _ => cases op <;> simp_all [isSubject, BinaryOp.isArithmetic, phrase,
      BinaryOp.phrase, bodies]
  | unary op _ => cases op <;> simp_all [isSubject, phrase, UnaryOp.phrase, bodies]
  | _ => simp_all [isSubject, phrase, bodies]

/-- Lexemes are the yield of a tree with the phrase and the value of an expression. -/
def Expr.Derivable (e : Expr) (ls : List Lexeme) : Prop :=
  Derives e.phrase.part ls (.datum e.tree)

theorem Expr.Derivable.expr {e : Expr} {ls : List Lexeme} (h : e.Derivable ls) :
    Derives expr.part ls (.datum e.datum) :=
  .phrase e.phrase_mem_bodies (.single h) rfl

theorem Expr.Derivable.caseExpr {e : Expr} {ls : List Lexeme} (h : e.Derivable ls)
    (hsubject : e.isSubject = true) : Derives caseExpr.part ls (.datum e.datum) :=
  .phrase (e.phrase_mem_caseBodies hsubject) (.single h) rfl

/-! ### Forms of expressions -/

section Forms

variable {ls rs cs ys ns vs : List Lexeme}

theorem derives_binary (op : BinaryOp) {left right : Expr}
    (hleft : Derives expr.part ls (.datum left.datum))
    (hright : Derives expr.part rs (.datum right.datum)) :
    (Expr.binary op left right).Derivable (ls ++ .symbol op.symbol :: rs) := by
  refine .phrase op.body_mem (.cons hleft (.mark op.symbol (.single hright))) ?_
  cases op <;> rfl

theorem derives_unary (op : UnaryOp) {body : Expr}
    (hbody : Derives expr.part ls (.datum body.datum)) :
    (Expr.unary op body).Derivable (.symbol op.symbol :: ls) := by
  refine .phrase op.body_mem (.mark op.symbol (.single hbody)) ?_
  cases op <;> rfl

/-- Variables and a body, for a quantifier as for an aggregation. -/
theorem derives_overVariables {n : Nonterminal} {head : BodySymbol} {l : Lexeme}
    {vars : List TypedVar} {body : Expr} (hhead : head = .terminal l.terminal)
    (hbodies : scopedBody head ∈ n.bodies) (haction : n.action = PhraseAction.overVariables)
    (hvars : CommaList TypedVar.Written vars vs)
    (hbody : Derives expr.part ls (.datum body.datum)) :
    Derives n.part
      (l :: .symbol .underscore :: .symbol .leftCurly :: (vs ++ .symbol .rightCurly :: ls))
      (.datum (.tuple [l.datum, .tuple (vars.map TypedVar.datum ++ [body.datum])])) := by
  subst hhead
  refine .phrase hbodies (.token l (.mark .underscore (.mark .leftCurly
    (.cons (derives_typedVarList hvars) (.mark .rightCurly (.single hbody)))))) ?_
  rw [haction]
  rfl

theorem derives_call (function : String) {args : List Expr}
    (hargs : CommaList (fun e l => Derives expr.part l (.datum e.datum)) args ls) :
    (Expr.call function args).Derivable
      (.ident function :: .symbol .leftBracket :: (ls ++ [.symbol .rightBracket])) := by
  have hlist : Derives exprList.part ls (.datum (.list (Expr.data args))) := by
    rw [Expr.data_eq_map]
    exact .commaList rfl rfl hargs
  refine .phrase (n := functionExpr) ?_ (.ident function (.mark .leftBracket (.cons hlist
    (.mark .rightBracket .nil)))) rfl
  decide

theorem derives_conditional {condition yes no : Expr}
    (hcondition : Derives expr.part cs (.datum condition.datum))
    (hyes : Derives expr.part ys (.datum yes.datum))
    (hno : Derives expr.part ns (.datum no.datum)) :
    (Expr.conditional condition yes no).Derivable
      (.keyword .ifWord :: .symbol .leftParen ::
        (cs ++ .symbol .rightParen :: .keyword .thenWord :: (ys ++ .keyword .elseWord :: ns))) := by
  refine .phrase (n := controlExpr) ?_ (.word .ifWord (.mark .leftParen (.cons hcondition
    (.mark .rightParen (.word .thenWord (.cons hyes (.word .elseWord (.single hno)))))))) rfl
  decide

theorem derives_switch {subject : Expr} {cases : List Case}
    (hsubject : Derives caseExpr.part ls (.datum subject.datum))
    (hcases : CommaList (fun c l => Derives caseDef.part l (.datum c.datum)) cases cs) :
    (Expr.switch subject cases).Derivable
      (.keyword .switch :: .symbol .leftParen ::
        (ls ++ .symbol .rightParen :: .symbol .leftCurly :: (cs ++ [.symbol .rightCurly]))) := by
  have hlist : Derives caseList.part cs (.datum (.list (Case.data cases))) := by
    rw [Case.data_eq_map]
    exact .commaList rfl rfl hcases
  refine .phrase (n := controlExpr) ?_ (.word .switch (.mark .leftParen (.cons hsubject
    (.mark .rightParen (.mark .leftCurly (.cons hlist (.mark .rightCurly .nil))))))) rfl
  decide

theorem derives_random (distribution : UnaryDistribution) {parameter : Expr}
    (h : Derives expr.part ls (.datum parameter.datum)) :
    (Expr.random distribution parameter).Derivable
      (.keyword distribution.keyword :: .symbol .leftParen :: (ls ++ [.symbol .rightParen])) := by
  exact .phrase distribution.body_mem (.word distribution.keyword (.mark .leftParen (.cons h
    (.mark .rightParen .nil)))) rfl

theorem derives_randomPair (distribution : BinaryDistribution) {first second : Expr}
    (hfirst : Derives expr.part ls (.datum first.datum))
    (hsecond : Derives expr.part rs (.datum second.datum)) :
    (Expr.randomPair distribution first second).Derivable
      (.keyword distribution.keyword :: .symbol .leftParen ::
        (ls ++ .symbol .comma :: (rs ++ [.symbol .rightParen]))) := by
  exact .phrase distribution.body_mem (.word distribution.keyword (.mark .leftParen
    (.cons hfirst (.mark .comma (.cons hsecond (.mark .rightParen .nil)))))) rfl

theorem derives_dirichlet (type : String) {parameter : Expr}
    (h : Derives expr.part ls (.datum parameter.datum)) :
    (Expr.dirichlet type parameter).Derivable
      (.keyword .dirichlet :: .symbol .leftParen :: .ident type :: .symbol .comma ::
        (ls ++ [.symbol .rightParen])) := by
  refine .phrase (n := randomvarExpr) ?_ (.word .dirichlet (.mark .leftParen (.ident type
    (.mark .comma (.cons h (.mark .rightParen .nil)))))) rfl
  decide

end Forms

/-! ### Outcomes -/

/-- A label and a weight derive an outcome that follows a comma. -/
def Outcome.Derivable (o : Outcome) (ls : List Lexeme) : Prop :=
  ∃ label weight ns ws, ls = ns ++ .symbol .colon :: ws ∧
    Derives lconst.part ns (.datum label) ∧ Derives expr.part ws (.datum weight) ∧
    o.datum = PhraseAction.outcome label weight

theorem derives_outcomes {os : List Outcome} {ls ls₀ : List Lexeme} {xs : List Datum}
    (hos : CommaTail Outcome.Derivable os ls)
    (h : Derives lconstCaseList.part ls₀ (.datum (.list xs))) :
    Derives lconstCaseList.part (ls₀ ++ ls) (.datum (.list (xs ++ Outcome.data os))) := by
  induction hos generalizing ls₀ xs with
  | nil => simpa [Outcome.data] using h
  | @cons o os l ls ho _ ih =>
    obtain ⟨label, weight, ns, ws, rfl, hlabel, hweight, hdatum⟩ := ho
    have hgrown : Derives lconstCaseList.part
        (ls₀ ++ .symbol .comma :: (ns ++ .symbol .colon :: ws))
        (.datum (.list (xs ++ [o.datum]))) := by
      rw [hdatum]
      refine .phrase ?_ (.cons h (.mark .comma (.cons hlabel (.mark .colon (.single hweight))))) rfl
      decide
    simpa [Outcome.data] using ih hgrown

theorem derives_discrete (type : String) {first : Outcome} {rest : List Outcome}
    {fs rs : List Lexeme} (hfirst : Derives lconstCaseList.part fs (.datum (.list [first.datum])))
    (hrest : CommaTail Outcome.Derivable rest rs) :
    (Expr.discrete type (first :: rest)).Derivable
      (.keyword .discrete :: .symbol .leftParen :: .ident type :: .symbol .comma ::
        (fs ++ (rs ++ [.symbol .rightParen]))) := by
  rw [← List.append_assoc]
  refine .phrase (n := randomvarExpr) ?_ (.word .discrete (.mark .leftParen (.ident type
    (.mark .comma (.cons (derives_outcomes hrest hfirst) (.mark .rightParen .nil)))))) rfl
  decide

/-! ### All expressions -/

section Induction

variable {n : Nat}
  (ih : ∀ (e : Expr) (l : List Lexeme), l.length < n → e.Written l → e.Derivable l)
include ih

theorem Case.derives_of_shorter {c : Case} {ls : List Lexeme} (hn : ls.length ≤ n)
    (h : c.Written ls) : Derives caseDef.part ls (.datum c.datum) := by
  cases h with
  | value hsubject hguard hbody =>
    simp only [List.length_cons, List.length_append] at hn
    have hguard := (ih _ _ (by omega) hguard).caseExpr hsubject
    have hbody := (ih _ _ (by omega) hbody).expr
    exact .phrase (by decide)
      (.word .caseWord (.cons hguard (.mark .colon (.single hbody)))) rfl
  | default hbody =>
    simp only [List.length_cons] at hn
    have hbody := (ih _ _ (by omega) hbody).expr
    exact .phrase (by decide) (.word .defaultWord (.mark .colon (.single hbody))) rfl

theorem Outcome.derivable_of_shorter {o : Outcome} {ls : List Lexeme} (hn : ls.length ≤ n)
    (h : o.Written ls) : o.Derivable ls := by
  cases h with
  | weighted hlabel hweight =>
    simp only [List.length_cons, List.length_append] at hn
    exact ⟨_, _, _, _, rfl, hlabel.derives, (ih _ _ (by omega) hweight).expr, rfl⟩

theorem Outcome.derives_of_shorter {o : Outcome} {ls : List Lexeme} (hn : ls.length ≤ n)
    (h : o.FirstWritten ls) : Derives lconstCaseList.part ls (.datum (.list [o.datum])) := by
  cases h with
  | weighted hlabel hweight =>
    simp only [List.length_cons, List.length_append] at hn
    have hweight := (ih _ _ (by omega) hweight).expr
    exact .phrase (by decide) (.cons hlabel.derives (.mark .colon (.single hweight))) rfl
  | otherwise hlabel =>
    exact .phrase (by decide) (.cons hlabel.derives (.mark .colon (.word .otherwise .nil))) rfl

/-- One constructor at a time: the parts of a written expression are shorter than it. -/
theorem Expr.derivable_of_shorter {e : Expr} {ls : List Lexeme} (hn : ls.length = n)
    (h : e.Written ls) : e.Derivable ls := by
  -- `ih` counts lexemes and not layers of the tree, so it serves the members of a list as well
  cases h with
  | enumValue name => exact .phrase (n := penumExpr) (by decide) (.enumValue name .nil) rfl
  | «variable» name => exact .phrase (n := paramExpr) (by decide) (.variableName name .nil) rfl
  | occurrence ho => exact ho.derives
  | group bracket hbody =>
    simp only [List.length_cons, List.length_append] at hn
    have hbody := (ih _ _ (by omega) hbody).expr
    exact .phrase bracket.body_mem (.mark _ (.cons hbody (.mark _ .nil))) rfl
  | call function hargs =>
    simp only [List.length_cons, List.length_append] at hn
    exact derives_call function (hargs.imp fun e l hl he => (ih e l (by omega) he).expr)
  | binary op hleft hright =>
    simp only [List.length_cons, List.length_append] at hn
    exact derives_binary op (ih _ _ (by omega) hleft).expr (ih _ _ (by omega) hright).expr
  | unary op hbody =>
    simp only [List.length_cons] at hn
    exact derives_unary op (ih _ _ (by omega) hbody).expr
  | truth value =>
    exact .phrase (n := booleanExpr) (by decide) (.single (derives_boolType value)) rfl
  | integer value => exact .phrase (n := numericalExpr) (by decide) (.integer value .nil) rfl
  | real value => exact .phrase (n := numericalExpr) (by decide) (.real value .nil) rfl
  | quantified quantifier hvars hbody =>
    simp only [List.length_cons, List.length_append] at hn
    exact derives_overVariables rfl quantifier.body_mem rfl hvars (ih _ _ (by omega) hbody).expr
  | aggregated operator hvars hbody =>
    simp only [List.length_cons, List.length_append] at hn
    exact derives_overVariables (n := aggregationExpr) (l := .ident operator)
      (rfl : BodySymbol.ident = _) (by decide) rfl hvars (ih _ _ (by omega) hbody).expr
  | conditional hcondition hyes hno =>
    simp only [List.length_cons, List.length_append] at hn
    exact derives_conditional (ih _ _ (by omega) hcondition).expr (ih _ _ (by omega) hyes).expr
      (ih _ _ (by omega) hno).expr
  | switch hsubject hwritten hcases =>
    simp only [List.length_cons, List.length_append] at hn
    exact derives_switch ((ih _ _ (by omega) hwritten).caseExpr hsubject)
      (hcases.imp fun c l hl hc => Case.derives_of_shorter ih (by omega) hc)
  | random distribution hparameter =>
    simp only [List.length_cons, List.length_append] at hn
    exact derives_random distribution (ih _ _ (by omega) hparameter).expr
  | randomPair distribution hfirst hsecond =>
    simp only [List.length_cons, List.length_append] at hn
    exact derives_randomPair distribution (ih _ _ (by omega) hfirst).expr
      (ih _ _ (by omega) hsecond).expr
  | dirichlet type hparameter =>
    simp only [List.length_cons, List.length_append] at hn
    exact derives_dirichlet type (ih _ _ (by omega) hparameter).expr
  | discrete type hfirst hrest =>
    simp only [List.length_cons, List.length_append] at hn
    exact derives_discrete type (Outcome.derives_of_shorter ih (by omega) hfirst)
      (hrest.imp fun o l hl ho => Outcome.derivable_of_shorter ih (by omega) ho)

end Induction

theorem Expr.Written.derivable {e : Expr} {ls : List Lexeme} (h : e.Written ls) :
    e.Derivable ls := by
  induction hn : ls.length using Nat.strong_induction_on generalizing e ls with
  | _ n ih => exact Expr.derivable_of_shorter (fun e l hl he => ih _ hl he rfl) hn h

/-- A written expression is a phrase with its datum as value. -/
theorem Expr.Written.derives {e : Expr} {ls : List Lexeme} (h : e.Written ls) :
    Derives expr.part ls (.datum e.datum) :=
  h.derivable.expr

end Rddl
