/-
  Rddl/Proofs/Reader/Takes.lean
  =============================
  **What readers of expressions take from the text.**

  `Takes r W` says that a successful run of the reader `r` takes lexemes off the front
  that are related to its result by `W`, and nothing else.  The main results are
  `expression_takes` and `occurrence_takes`: what is taken spells the expression or
  the fluent that was read.  The proofs go by induction on the bound of the readers;
  a chain of operands is put together by `Expr.attach`, which moves no lexeme.
-/
import Rddl.Proofs.Reader.Run
import Rddl.Proofs.Syntax.Shape

namespace Rddl

namespace Reader

variable {α β : Type} {W : α → List Lexeme → Prop}

/-- Every successful run of a reader takes lexemes that are related to its result. -/
def Takes (r : Reader α) (W : α → List Lexeme → Prop) : Prop :=
  ∀ c a c', r c = .ok a c' → ∃ ls, c.lexemes = ls ++ c'.lexemes ∧ W a ls

/-! ### Composition -/

theorem unexpected_takes : (unexpected : Reader α).Takes W := by
  intro c a c' h
  exact absurd h unexpected_ne_ok

theorem pure_takes {a : α} (h : W a []) : (pure a : Reader α).Takes W := by
  intro c b c' hrun
  obtain ⟨rfl, rfl⟩ := pure_eq_ok.mp hrun
  exact ⟨[], rfl, h⟩

theorem Takes.map {r : Reader β} {V : β → List Lexeme → Prop} {f : β → α} (hr : r.Takes V)
    (hf : ∀ b ls, V b ls → W (f b) ls) : Takes (do pure (f (← r))) W := by
  intro c a c' h
  simp only [bind_eq_ok, pure_eq_ok] at h
  obtain ⟨b, c₁, hb, rfl, rfl⟩ := h
  obtain ⟨ls, hls, hw⟩ := hr _ _ _ hb
  exact ⟨ls, hls, hf b ls hw⟩

theorem take_takes {use : Lexeme → Option α} (h : ∀ l a, use l = some a → W a [l]) :
    (take use).Takes W := by
  intro c a c' hrun
  obtain ⟨l, huse, hlex⟩ := take_eq_ok hrun
  exact ⟨[l], hlex, h l a huse⟩

/-- A reader that goes on behind a lexeme it has seen takes that lexeme first. -/
theorem Takes.behind {l : Lexeme} {r : Reader α} {c c' : Cursor} {a : α}
    (hr : r.Takes fun a ls => W a (l :: ls)) (hseen : c.next? = some l)
    (h : (do advance; r) c = .ok a c') : ∃ ls, c.lexemes = ls ++ c'.lexemes ∧ W a ls := by
  obtain ⟨_, c₁, hadv, hrun⟩ := bind_eq_ok.mp h
  obtain ⟨ls, hls, hw⟩ := hr _ _ _ hrun
  exact ⟨l :: ls, by rw [lexemes_of_seen hseen hadv, hls, List.cons_append], hw⟩

/-! ### Lists -/

section Lists

variable {item : Reader α}

theorem commaTail_takes (hitem : item.Takes W) (n : Nat) :
    (commaTail item n).Takes (CommaTail W) := by
  induction n with
  | zero => exact unexpected_takes
  | succ n ih =>
    intro c as c' h
    simp only [commaTail, bind_eq_ok] at h
    obtain ⟨more, c₁, hcomma, h⟩ := h
    rcases acceptSymbol_eq_ok hcomma with ⟨rfl, hlex⟩ | ⟨rfl, rfl⟩
    · simp only [if_true, bind_eq_ok, pure_eq_ok] at h
      obtain ⟨a, c₂, ha, rest, c₃, hrest, rfl, rfl⟩ := h
      obtain ⟨ls, hls, hwa⟩ := hitem _ _ _ ha
      obtain ⟨ls', hls', hwrest⟩ := ih _ _ _ hrest
      exact ⟨_, by simp [hlex, hls, hls'], .cons hwa hwrest⟩
    · simp only [Bool.false_eq_true, if_false, pure_eq_ok] at h
      obtain ⟨rfl, rfl⟩ := h
      exact ⟨[], rfl, .nil⟩

theorem commaList_takes (hitem : item.Takes W) (n : Nat) :
    (commaList item n).Takes (CommaList W) := by
  intro c as c' h
  simp only [commaList, bind_eq_ok, pure_eq_ok] at h
  obtain ⟨a, c₁, ha, rest, c₂, hrest, rfl, rfl⟩ := h
  obtain ⟨ls, hls, hwa⟩ := hitem _ _ _ ha
  obtain ⟨ls', hls', hwrest⟩ := commaTail_takes hitem n _ _ _ hrest
  exact ⟨_, by simp [hls, hls'], .mk hwa hwrest⟩

/-- A loose list is taken together with the symbol that closes it. -/
theorem looseList_takes (hitem : item.Takes W) (close : Symbol) (n : Nat) :
    (looseList item close n).Takes
      fun as ls => ∃ l, ls = l ++ [.symbol close] ∧ LooseList W as l := by
  intro c as c' h
  simp only [looseList, bind_eq_ok, peek_eq_ok] at h
  obtain ⟨_, _, ⟨rfl, rfl⟩, h⟩ := h
  split at h
  · simp only [bind_eq_ok, pure_eq_ok] at h
    obtain ⟨items, c₁, hitems, _, c₂, hclose, rfl, rfl⟩ := h
    obtain ⟨l, hl, hw⟩ := commaTail_takes hitem n _ _ _ hitems
    refine ⟨_, by simp [hl, symbol_eq_ok hclose], l, rfl, ?_⟩
    -- without a first item the list is empty or starts with a comma
    cases hw with
    | nil => exact .nil
    | cons ha has => exact .afterComma ha has
  · simp only [bind_eq_ok, pure_eq_ok] at h
    obtain ⟨items, c₁, hitems, _, c₂, hclose, rfl, rfl⟩ := h
    obtain ⟨l, hl, hw⟩ := commaList_takes hitem n _ _ _ hitems
    refine ⟨_, by simp [hl, symbol_eq_ok hclose], l, rfl, ?_⟩
    cases hw with
    | mk ha has => exact .plain ha has

/-- Items up to a closing brace are taken together with the brace. -/
theorem itemsToClose_takes (hitem : item.Takes W) (n : Nat) :
    (itemsToClose item n).Takes
      fun as ls => ∃ l, ls = l ++ [.symbol .rightCurly] ∧ Items W as l := by
  induction n with
  | zero => exact unexpected_takes
  | succ n ih =>
    intro c as c' h
    simp only [itemsToClose, bind_eq_ok] at h
    obtain ⟨closed, c₁, hclose, h⟩ := h
    rcases acceptSymbol_eq_ok hclose with ⟨rfl, hlex⟩ | ⟨rfl, rfl⟩
    · simp only [if_true, pure_eq_ok] at h
      obtain ⟨rfl, rfl⟩ := h
      exact ⟨[.symbol .rightCurly], by simp [hlex], [], rfl, .nil⟩
    · simp only [Bool.false_eq_true, if_false, bind_eq_ok, pure_eq_ok] at h
      obtain ⟨a, c₂, ha, rest, c₃, hrest, rfl, rfl⟩ := h
      obtain ⟨ls, hls, hwa⟩ := hitem _ _ _ ha
      obtain ⟨_, hls', l, rfl, hwrest⟩ := ih _ _ _ hrest
      exact ⟨_, by rw [hls, hls', ← List.append_assoc, ← List.append_assoc], ls ++ l, rfl,
        .cons hwa hwrest⟩

end Lists

/-! ### Names, terms and occurrences -/

theorem ident_takes : ident.Takes IdentWritten :=
  fun _ name _ h => ⟨[.ident name], by simp [ident_eq_ok h], .mk name⟩

theorem enumValue_takes : enumValue.Takes EnumValueWritten :=
  fun _ name _ h => ⟨[.enumValue name], by simp [enumValue_eq_ok h], .mk name⟩

theorem label_takes : label.Takes LabelWritten := by
  refine take_takes ?_
  intro l name huse
  split at huse
  · cases huse
    exact .ident name
  · cases huse
    exact .enumValue name
  · cases huse

theorem termWithin_takes (n : Nat) : (termWithin n).Takes Term.Written := by
  induction n with
  | zero => exact unexpected_takes
  | succ n ih =>
    intro c t c' h
    rw [termWithin, bind_eq_ok] at h
    obtain ⟨next, _, hpeek, h⟩ := h
    obtain ⟨hseen, rfl⟩ := peek_eq_ok.mp hpeek
    split at h
    · next name => exact (pure_takes (.variable name)).behind hseen h
    · next name => exact (pure_takes (.enumValue name)).behind hseen h
    · -- a fluent, with or without arguments of its own
      next name =>
      simp only [bind_eq_ok] at h
      obtain ⟨_, c₁, hadv, applied, c₂, hparen, h⟩ := h
      have hlex := lexemes_of_seen hseen hadv
      rcases acceptSymbol_eq_ok hparen with ⟨rfl, hlex'⟩ | ⟨rfl, rfl⟩
      · simp only [if_true, bind_eq_ok, pure_eq_ok] at h
        obtain ⟨args, _, hargs, rfl, rfl⟩ := h
        obtain ⟨_, hls, l, rfl, hw⟩ := looseList_takes ih .rightParen n _ _ _ hargs
        exact ⟨_, by simp [hlex, hlex', hls], .applied name hw⟩
      · simp only [Bool.false_eq_true, if_false, pure_eq_ok] at h
        obtain ⟨rfl, rfl⟩ := h
        exact ⟨_, by simp [hlex], .fluent name⟩
    · exact unexpected_takes _ _ _ h

/-- What follows the name of a fluent completes an occurrence of it. -/
theorem occurrenceTail_takes (name : String) (n : Nat) :
    (occurrenceTail name n).Takes fun o ls => o.Written (.ident name :: ls) := by
  intro c o c' h
  simp only [occurrenceTail, bind_eq_ok] at h
  obtain ⟨applied, c₁, hparen, h⟩ := h
  rcases acceptSymbol_eq_ok hparen with ⟨rfl, hlex'⟩ | ⟨rfl, rfl⟩
  · simp only [if_true, bind_eq_ok, pure_eq_ok] at h
    obtain ⟨args, _, hargs, rfl, rfl⟩ := h
    obtain ⟨_, hls, l, rfl, hw⟩ := looseList_takes (termWithin_takes n) .rightParen n _ _ _ hargs
    exact ⟨_, by simp [hlex', hls], .applied name hw⟩
  · simp only [Bool.false_eq_true, if_false, pure_eq_ok] at h
    obtain ⟨rfl, rfl⟩ := h
    exact ⟨[], rfl, .plain name⟩

theorem occurrence_takes : occurrence.Takes Occurrence.Written := by
  intro c o c' h
  simp only [occurrence, bind_eq_ok, bound_eq_ok] at h
  obtain ⟨_, _, ⟨rfl, rfl⟩, name, c₁, hname, htail⟩ := h
  obtain ⟨ls, hls, hw⟩ := occurrenceTail_takes name _ _ _ _ htail
  exact ⟨_, by simp [ident_eq_ok hname, hls], hw⟩

theorem typedVar_takes : typedVar.Takes TypedVar.Written := by
  intro c v c' h
  simp only [typedVar, bind_eq_ok, pure_eq_ok] at h
  obtain ⟨name, c₁, hname, _, c₂, hcolon, type, c₃, htype, rfl, rfl⟩ := h
  refine ⟨_, ?_, .mk name type⟩
  simp [variableName_eq_ok hname, symbol_eq_ok hcolon, ident_eq_ok htype]

theorem typedVars_takes (n : Nat) :
    (typedVars n).Takes fun vars ls => ∃ vs, ls = .symbol .underscore :: .symbol .leftCurly ::
      (vs ++ [.symbol .rightCurly]) ∧ CommaList TypedVar.Written vars vs := by
  intro c vars c' h
  simp only [typedVars, bind_eq_ok, pure_eq_ok] at h
  obtain ⟨_, c₁, hmark, _, c₂, hopen, vars, c₃, hvars, _, c₄, hclose, rfl, rfl⟩ := h
  obtain ⟨vs, hvs, hw⟩ := commaList_takes typedVar_takes n _ _ _ hvars
  refine ⟨_, ?_, vs, rfl, hw⟩
  simp [symbol_eq_ok hmark, symbol_eq_ok hopen, hvs, symbol_eq_ok hclose]

/-! ### Parts of operands

Each of these readers is over a reader of expressions, of which it is only known that
it takes what its result is spelled by. -/

section Parts

variable {expr : Reader Expr}

theorem subject_takes (hexpr : expr.Takes Expr.Written) :
    (subject expr).Takes fun e ls => e.isSubject = true ∧ e.Written ls := by
  intro c e c' h
  simp only [subject, bind_eq_ok] at h
  obtain ⟨e', c₁, he, h⟩ := h
  split at h
  · next hsubject =>
    obtain ⟨rfl, rfl⟩ := pure_eq_ok.mp h
    obtain ⟨ls, hls, hw⟩ := hexpr _ _ _ he
    exact ⟨ls, hls, hsubject, hw⟩
  · exact absurd h unexpected_ne_ok

theorem namedOperand_takes (hexpr : expr.Takes Expr.Written) (name : String) (n : Nat) :
    (namedOperand expr name n).Takes fun e ls => e.Written (.ident name :: ls) := by
  intro c e c' h
  simp only [namedOperand, bind_eq_ok, peek_eq_ok] at h
  obtain ⟨next, _, ⟨hseen, rfl⟩, h⟩ := h
  split at h
  · -- a bracket: the name is that of a function
    simp only [bind_eq_ok, pure_eq_ok] at h
    obtain ⟨_, c₁, hadv, args, c₂, hargs, _, c₃, hclose, rfl, rfl⟩ := h
    obtain ⟨ls, hls, hw⟩ := commaList_takes hexpr n _ _ _ hargs
    refine ⟨_, ?_, .call name hw⟩
    simp [lexemes_of_seen hseen hadv, hls, symbol_eq_ok hclose]
  · -- an underscore: the name is that of an aggregation
    simp only [bind_eq_ok, pure_eq_ok] at h
    obtain ⟨vars, c₁, hvars, body, c₂, hbody, rfl, rfl⟩ := h
    obtain ⟨_, hlex, vs, rfl, hwvars⟩ := typedVars_takes n _ _ _ hvars
    obtain ⟨ls, hls, hwbody⟩ := hexpr _ _ _ hbody
    refine ⟨_, ?_, .aggregated name hwvars hwbody⟩
    simp [hlex, hls]
  · -- anything else: the name is that of a fluent
    simp only [bind_eq_ok, pure_eq_ok] at h
    obtain ⟨o, c₁, ho, rfl, rfl⟩ := h
    obtain ⟨ls, hls, hw⟩ := occurrenceTail_takes name n _ _ _ ho
    exact ⟨ls, hls, .occurrence hw⟩

theorem conditional_takes (hexpr : expr.Takes Expr.Written) :
    (conditional expr).Takes fun e ls => e.Written (.keyword .ifWord :: ls) := by
  intro c e c' h
  simp only [conditional, bind_eq_ok, pure_eq_ok] at h
  obtain ⟨_, c₁, hopen, test, c₂, htest, _, c₃, hclose, _, c₄, hthen, yes, c₅, hyes, _, c₆, helse,
    no, c₇, hno, rfl, rfl⟩ := h
  obtain ⟨cs, hcs, hwtest⟩ := hexpr _ _ _ htest
  obtain ⟨ys, hys, hwyes⟩ := hexpr _ _ _ hyes
  obtain ⟨ns, hns, hwno⟩ := hexpr _ _ _ hno
  refine ⟨_, ?_, .conditional hwtest hwyes hwno⟩
  simp [symbol_eq_ok hopen, hcs, symbol_eq_ok hclose, keyword_eq_ok hthen, hys,
    keyword_eq_ok helse, hns]

theorem switchCase_takes (hexpr : expr.Takes Expr.Written) :
    (switchCase expr).Takes Case.Written := by
  intro c k c' h
  simp only [switchCase, bind_eq_ok, peek_eq_ok] at h
  obtain ⟨next, _, ⟨hseen, rfl⟩, h⟩ := h
  split at h
  · simp only [bind_eq_ok, pure_eq_ok] at h
    obtain ⟨_, c₁, hadv, guard, c₂, hguard, _, c₃, hcolon, body, c₄, hbody, rfl, rfl⟩ := h
    obtain ⟨gs, hgs, hsubject, hwguard⟩ := subject_takes hexpr _ _ _ hguard
    obtain ⟨ls, hls, hwbody⟩ := hexpr _ _ _ hbody
    refine ⟨_, ?_, .value hsubject hwguard hwbody⟩
    simp [lexemes_of_seen hseen hadv, hgs, symbol_eq_ok hcolon, hls]
  · simp only [bind_eq_ok, pure_eq_ok] at h
    obtain ⟨_, c₁, hadv, _, c₂, hcolon, body, c₃, hbody, rfl, rfl⟩ := h
    obtain ⟨ls, hls, hwbody⟩ := hexpr _ _ _ hbody
    refine ⟨_, ?_, .default hwbody⟩
    simp [lexemes_of_seen hseen hadv, symbol_eq_ok hcolon, hls]
  · exact unexpected_takes _ _ _ h

theorem switch_takes (hexpr : expr.Takes Expr.Written) (n : Nat) :
    (switch expr n).Takes fun e ls => e.Written (.keyword .switch :: ls) := by
  intro c e c' h
  simp only [switch, bind_eq_ok, pure_eq_ok] at h
  obtain ⟨_, c₁, hopen, on, c₂, hon, _, c₃, hclose, _, c₄, hcurly, cases, c₅, hcases, _, c₆,
    hend, rfl, rfl⟩ := h
  obtain ⟨ss, hss, hsubject, hwon⟩ := subject_takes hexpr _ _ _ hon
  obtain ⟨ks, hks, hwcases⟩ := commaList_takes (switchCase_takes hexpr) n _ _ _ hcases
  refine ⟨_, ?_, .switch hsubject hwon hwcases⟩
  simp [symbol_eq_ok hopen, hss, symbol_eq_ok hclose, symbol_eq_ok hcurly, hks,
    symbol_eq_ok hend]

theorem firstOutcome_takes (hexpr : expr.Takes Expr.Written) :
    (firstOutcome expr).Takes Outcome.FirstWritten := by
  intro c o c' h
  simp only [firstOutcome, bind_eq_ok] at h
  obtain ⟨name, c₁, hname, _, c₂, hcolon, last, c₃, hother, h⟩ := h
  obtain ⟨ns, hns, hwname⟩ := label_takes _ _ _ hname
  rcases accept_eq_ok hother with ⟨rfl, hlex⟩ | ⟨rfl, rfl⟩
  · simp only [if_true, pure_eq_ok] at h
    obtain ⟨rfl, rfl⟩ := h
    refine ⟨_, ?_, .otherwise hwname⟩
    simp [hns, symbol_eq_ok hcolon, hlex]
  · simp only [Bool.false_eq_true, if_false, bind_eq_ok, pure_eq_ok] at h
    obtain ⟨weight, c₄, hweight, rfl, rfl⟩ := h
    obtain ⟨ls, hls, hw⟩ := hexpr _ _ _ hweight
    refine ⟨_, ?_, .weighted hwname hw⟩
    simp [hns, symbol_eq_ok hcolon, hls]

theorem outcome_takes (hexpr : expr.Takes Expr.Written) :
    (outcome expr).Takes Outcome.Written := by
  intro c o c' h
  simp only [outcome, bind_eq_ok, pure_eq_ok] at h
  obtain ⟨name, c₁, hname, _, c₂, hcolon, weight, c₃, hweight, rfl, rfl⟩ := h
  obtain ⟨ns, hns, hwname⟩ := label_takes _ _ _ hname
  obtain ⟨ls, hls, hw⟩ := hexpr _ _ _ hweight
  refine ⟨_, ?_, .weighted hwname hw⟩
  simp [hns, symbol_eq_ok hcolon, hls]

theorem discrete_takes (hexpr : expr.Takes Expr.Written) (n : Nat) :
    (discrete expr n).Takes fun e ls => e.Written (.keyword .discrete :: ls) := by
  intro c e c' h
  simp only [discrete, bind_eq_ok, pure_eq_ok] at h
  obtain ⟨_, c₁, hopen, type, c₂, htype, _, c₃, hcomma, first, c₄, hfirst, rest, c₅, hrest, _, c₆,
    hclose, rfl, rfl⟩ := h
  obtain ⟨fs, hfs, hwfirst⟩ := firstOutcome_takes hexpr _ _ _ hfirst
  obtain ⟨rs, hrs, hwrest⟩ := commaTail_takes (outcome_takes hexpr) n _ _ _ hrest
  refine ⟨_, ?_, .discrete type hwfirst hwrest⟩
  simp [symbol_eq_ok hopen, ident_eq_ok htype, symbol_eq_ok hcomma, hfs, hrs,
    symbol_eq_ok hclose]

theorem dirichlet_takes (hexpr : expr.Takes Expr.Written) :
    (dirichlet expr).Takes fun e ls => e.Written (.keyword .dirichlet :: ls) := by
  intro c e c' h
  simp only [dirichlet, bind_eq_ok, pure_eq_ok] at h
  obtain ⟨_, c₁, hopen, type, c₂, htype, _, c₃, hcomma, parameter, c₄, hparameter, _, c₅, hclose,
    rfl, rfl⟩ := h
  obtain ⟨ls, hls, hw⟩ := hexpr _ _ _ hparameter
  refine ⟨_, ?_, .dirichlet type hw⟩
  simp [symbol_eq_ok hopen, ident_eq_ok htype, symbol_eq_ok hcomma, hls, symbol_eq_ok hclose]

theorem random_takes (hexpr : expr.Takes Expr.Written) (d : UnaryDistribution) :
    (random expr d).Takes fun e ls => e.Written (.keyword d.keyword :: ls) := by
  intro c e c' h
  simp only [random, bind_eq_ok, pure_eq_ok] at h
  obtain ⟨_, c₁, hopen, parameter, c₂, hparameter, _, c₃, hclose, rfl, rfl⟩ := h
  obtain ⟨ls, hls, hw⟩ := hexpr _ _ _ hparameter
  refine ⟨_, ?_, .random d hw⟩
  simp [symbol_eq_ok hopen, hls, symbol_eq_ok hclose]

theorem randomPair_takes (hexpr : expr.Takes Expr.Written) (d : BinaryDistribution) :
    (randomPair expr d).Takes fun e ls => e.Written (.keyword d.keyword :: ls) := by
  intro c e c' h
  simp only [randomPair, bind_eq_ok, pure_eq_ok] at h
  obtain ⟨_, c₁, hopen, first, c₂, hfirst, _, c₃, hcomma, second, c₄, hsecond, _, c₅, hclose, rfl,
    rfl⟩ := h
  obtain ⟨fs, hfs, hwfirst⟩ := hexpr _ _ _ hfirst
  obtain ⟨ss, hss, hwsecond⟩ := hexpr _ _ _ hsecond
  refine ⟨_, ?_, .randomPair d hwfirst hwsecond⟩
  simp [symbol_eq_ok hopen, hfs, symbol_eq_ok hcomma, hss, symbol_eq_ok hclose]

/-- Behind an opening bracket stand an expression and the bracket that closes the group. -/
theorem groupRest_takes (hexpr : expr.Takes Expr.Written) (bracket : Bracket) :
    Takes (do
      let body ← expr
      symbol bracket.closing
      pure (Expr.group bracket body))
      fun e ls => e.Written (.symbol bracket.opening :: ls) := by
  intro c e c' h
  simp only [bind_eq_ok, pure_eq_ok] at h
  obtain ⟨body, c₁, hbody, _, c₂, hclose, rfl, rfl⟩ := h
  obtain ⟨ls, hls, hw⟩ := hexpr _ _ _ hbody
  refine ⟨_, ?_, .group bracket hw⟩
  simp [hls, symbol_eq_ok hclose]

theorem quantified_takes (hexpr : expr.Takes Expr.Written) (quantifier : Quantifier) (n : Nat) :
    Takes (do
      let vars ← typedVars n
      pure (Expr.quantified quantifier vars (← expr)))
      fun e ls => e.Written (.keyword quantifier.keyword :: ls) := by
  intro c e c' h
  simp only [bind_eq_ok, pure_eq_ok] at h
  obtain ⟨vars, c₁, hvars, body, c₂, hbody, rfl, rfl⟩ := h
  obtain ⟨_, hlex, vs, rfl, hwvars⟩ := typedVars_takes n _ _ _ hvars
  obtain ⟨ls, hls, hwbody⟩ := hexpr _ _ _ hbody
  refine ⟨_, ?_, .quantified quantifier hwvars hwbody⟩
  simp [hlex, hls]

theorem keywordOperand_takes (hexpr : expr.Takes Expr.Written) {n : Nat} {word : Keyword}
    {r : Reader Expr} (h : keywordOperand expr n word = some r) :
    r.Takes fun e ls => e.Written (.keyword word :: ls) := by
  unfold keywordOperand at h
  -- one reader for each keyword, in the order in which the keywords are looked at
  split at h
  · cases h
    exact pure_takes (.truth true)
  · cases h
    exact pure_takes (.truth false)
  · cases h
    exact quantified_takes hexpr .universal n
  · cases h
    exact quantified_takes hexpr .existential n
  · cases h
    exact conditional_takes hexpr
  · cases h
    exact switch_takes hexpr n
  · cases h
    exact discrete_takes hexpr n
  · cases h
    exact dirichlet_takes hexpr
  · split at h
    · next hunary =>
      cases h
      rw [UnaryDistribution.keyword_of_ofKeyword? hunary]
      exact random_takes hexpr _
    · next _ _ hbinary =>
      cases h
      rw [BinaryDistribution.keyword_of_ofKeyword? hbinary]
      exact randomPair_takes hexpr _
    · cases h

end Parts

/-! ### Expressions -/

/-- The three readers of expressions take what spells their results, within a bound. -/
structure WithinTakes (n : Nat) : Prop where
  expr : (exprWithin n).Takes Expr.Written
  chain : (chainWithin n).Takes (Items LinkWritten)
  operand : (operandWithin n).Takes Expr.Written

theorem operandWithin_succ_takes {n : Nat} (ih : WithinTakes n) :
    (operandWithin (n + 1)).Takes Expr.Written := by
  intro c e c' h
  rw [operandWithin, bind_eq_ok] at h
  obtain ⟨next, _, hpeek, h⟩ := h
  obtain ⟨hseen, rfl⟩ := peek_eq_ok.mp hpeek
  -- by the lexeme that is seen; what follows a keyword depends on the keyword
  split at h
  · next name => exact (pure_takes (.enumValue name)).behind hseen h
  · next name => exact (pure_takes (.variable name)).behind hseen h
  · next value => exact (pure_takes (.integer value)).behind hseen h
  · next value => exact (pure_takes (.real value)).behind hseen h
  · next name => exact (namedOperand_takes ih.expr name n).behind hseen h
  · exact (groupRest_takes ih.expr .round).behind hseen h
  · exact (groupRest_takes ih.expr .square).behind hseen h
  · exact (ih.operand.map fun _ _ => .unary .not).behind hseen h
  · exact (ih.operand.map fun _ _ => .unary .minus).behind hseen h
  · exact (ih.operand.map fun _ _ => .unary .plus).behind hseen h
  · next word =>
    cases hr : keywordOperand (exprWithin n) n word with
    | none =>
      rw [hr] at h
      exact unexpected_takes _ _ _ h
    | some r =>
      rw [hr] at h
      exact (keywordOperand_takes ih.expr hr).behind hseen h
  · exact unexpected_takes _ _ _ h

theorem chainWithin_succ_takes {n : Nat} (ih : WithinTakes n) :
    (chainWithin (n + 1)).Takes (Items LinkWritten) := by
  intro c chain c' h
  simp only [chainWithin, bind_eq_ok, peek_eq_ok] at h
  obtain ⟨next, _, ⟨hseen, rfl⟩, h⟩ := h
  cases hop : next.bind BinaryOp.ofLexeme? with
  | none =>
    simp only [hop, pure_eq_ok] at h
    obtain ⟨rfl, rfl⟩ := h
    exact ⟨[], rfl, .nil⟩
  | some op =>
    simp only [hop, bind_eq_ok, pure_eq_ok] at h
    obtain ⟨_, c₁, hadv, operand, c₂, hoperand, rest, c₃, hrest, rfl, rfl⟩ := h
    obtain ⟨l, rfl, hop⟩ := Option.bind_eq_some_iff.mp hop
    obtain rfl := BinaryOp.ofLexeme?_eq_some.mp hop
    obtain ⟨ls, hls, hw⟩ := ih.operand _ _ _ hoperand
    obtain ⟨rs, hrs, hwrest⟩ := ih.chain _ _ _ hrest
    refine ⟨_, ?_, .cons ⟨ls, rfl, hw⟩ hwrest⟩
    simp [lexemes_of_seen hseen hadv, hls, hrs]

theorem exprWithin_succ_takes {n : Nat} (ih : WithinTakes n) :
    (exprWithin (n + 1)).Takes Expr.Written := by
  intro c e c' h
  simp only [exprWithin, bind_eq_ok, pure_eq_ok] at h
  obtain ⟨first, c₁, hfirst, chain, c₂, hchain, rfl, rfl⟩ := h
  obtain ⟨ls, hls, hw⟩ := ih.operand _ _ _ hfirst
  obtain ⟨rs, hrs, hwchain⟩ := ih.chain _ _ _ hchain
  exact ⟨_, by simp [hls, hrs], Expr.assemble_written hw hwchain⟩

theorem within_takes (n : Nat) : WithinTakes n := by
  induction n with
  | zero =>
    constructor
    · rw [exprWithin]
      exact unexpected_takes
    · rw [chainWithin]
      exact unexpected_takes
    · rw [operandWithin]
      exact unexpected_takes
  | succ n ih =>
    exact ⟨exprWithin_succ_takes ih, chainWithin_succ_takes ih, operandWithin_succ_takes ih⟩

/-- **What an expression is read from spells it.** -/
theorem expression_takes : expression.Takes Expr.Written := by
  intro c e c' h
  simp only [expression, bind_eq_ok, bound_eq_ok] at h
  obtain ⟨_, _, ⟨rfl, rfl⟩, h⟩ := h
  exact (within_takes _).expr _ _ _ h

end Reader

end Rddl
