/-
  Rddl/Proofs/Reader/Stops.lean
  =============================
  **Where readers stop.**

  `StopsAt r ls rest` says that the reader `r`, in front of the lexemes `ls` and then `rest`,
  takes exactly `ls` and has no use for what follows.  Readers put together stop where one of
  their parts does, behind what the parts before it read (`StopsAt.after`).  So where the reader
  of documents stops can be told from the expression in which it does (`model_stops`).
-/
import Rddl.Proofs.Reader.ReadsDocument

namespace Rddl.Reader

variable {α β : Type} {rest : List Lexeme}

/-- In front of the given lexemes a reader takes the first of them and stops at the rest. -/
def StopsAt (r : Reader α) (ls rest : List Lexeme) : Prop :=
  ∀ c : Cursor, c.Faces (ls ++ rest) → ∃ c', r c = .error .unexpected c' ∧ c'.Faces rest

namespace StopsAt

variable {r : Reader α} {f : α → Reader β} {l : Lexeme} {ls ls' : List Lexeme} {a : α}

theorem unexpected : StopsAt (Reader.unexpected : Reader α) [] rest := by
  intro c hc
  exact ⟨c, rfl, hc⟩

/-- A first part that stops. -/
theorem first (hr : StopsAt r ls rest) (f : α → Reader β) : StopsAt (r >>= f) ls rest := by
  intro c hc
  rcases hr c hc with ⟨c', hrun, hc'⟩
  exact ⟨c', bind_run_error hrun, hc'⟩

/-- A first part that reads what it is in front of. -/
theorem after (hr : Reads r ls (ls' ++ rest) a) (hf : StopsAt (f a) ls' rest) :
    StopsAt (r >>= f) (ls ++ ls') rest := by
  intro c hc
  rw [List.append_assoc] at hc
  rcases hr c hc with ⟨c₁, hrun, hc₁⟩
  rcases hf c₁ hc₁ with ⟨c₂, hstop, hc₂⟩
  exact ⟨c₂, by rw [bind_run_ok hrun, hstop], hc₂⟩

theorem andThen (hr : Reads r [l] (ls ++ rest) a) (hf : StopsAt (f a) ls rest) :
    StopsAt (r >>= f) (l :: ls) rest :=
  after hr hf

theorem before (hr : Reads r [] (ls ++ rest) a) (hf : StopsAt (f a) ls rest) :
    StopsAt (r >>= f) ls rest :=
  after hr hf

/-- A reader that goes by the lexeme ahead. -/
theorem seeing {f : Option Lexeme → Reader β} (h : StopsAt (f (some l)) (l :: ls) rest) :
    StopsAt (peek >>= f) (l :: ls) rest :=
  before .peek h

theorem accepting {f : Bool → Reader β} (h : StopsAt (f true) ls rest) :
    StopsAt (accept l >>= f) (l :: ls) rest :=
  andThen .accept_true h

end StopsAt

/-! ### Lists -/

/-- A list stops in an item behind others. -/
theorem commaTail_stops {item : Reader α} {Ok : Option Lexeme → Prop} {as : List α}
    {ls ks : List Lexeme} {n : Nat} (has : CommaTail (ReadsWhere item Ok) as ls)
    (hitem : StopsAt item ks rest) (hn : ls.length < n) (hcomma : Ok (some (.symbol .comma))) :
    StopsAt (commaTail item n) (ls ++ .symbol .comma :: ks) rest := by
  induction has generalizing n with
  | nil =>
    rcases Nat.exists_eq_succ_of_ne_zero (Nat.ne_of_gt hn) with ⟨n, rfl⟩
    exact .accepting (.first hitem _)
  | @cons a as l ls ha has ih =>
    rcases Nat.exists_eq_succ_of_ne_zero (Nat.ne_of_gt (Nat.zero_lt_of_lt hn)) with ⟨n, rfl⟩
    simp only [List.length_cons, List.length_append] at hn
    have hnext : Ok ((ls ++ .symbol .comma :: ks) ++ rest).head? := by
      rw [List.append_assoc]
      exact follows_of_commaTail has hcomma hcomma
    rw [List.cons_append, List.append_assoc]
    exact .accepting (.after (ha _ hnext) (.first (ih (by omega)) _))

/-! ### Expressions -/

/-- An operand does not start with a keyword that has no use there. -/
theorem operandWithin_stops {w : Keyword} (n : Nat)
    (hw : ∀ expr n, keywordOperand expr n w = none) :
    StopsAt (operandWithin n) [] (.keyword w :: rest) := by
  cases n with
  | zero => exact .unexpected
  | succ n =>
    refine .before .peek ?_
    simp only [List.nil_append, List.head?_cons, hw]
    exact .unexpected

theorem exprWithin_stops {w : Keyword} (n : Nat)
    (hw : ∀ expr n, keywordOperand expr n w = none) :
    StopsAt (exprWithin n) [] (.keyword w :: rest) := by
  cases n with
  | zero => exact .unexpected
  | succ n => exact .first (operandWithin_stops n hw) _

theorem keyword_operand_stops {n : Nat} {w : Keyword} {read : Reader Expr} {ls : List Lexeme}
    (hword : keywordOperand (exprWithin n) n w = some read) (h : StopsAt read ls rest) :
    StopsAt (operandWithin (n + 1)) (.keyword w :: ls) rest := by
  refine .seeing ?_
  simp only [hword]
  exact .andThen .advance h

/-- A discrete distribution stops at a weight behind other outcomes. -/
theorem discrete_stops {expr : Reader Expr} {k n : Nat} (hexpr : ReadsShorter expr k)
    (hweight : StopsAt expr [] rest) (type : String) {first : Outcome} {others : List Outcome}
    {label : String} {fs os ns : List Lexeme} (hfirst : first.FirstWritten fs)
    (hothers : CommaTail Outcome.Written others os) (hlabel : LabelWritten label ns)
    (hshape : ∀ o ∈ first :: others, o.isWellShaped = true) (hk : fs.length + os.length ≤ k)
    (hn : os.length < n) :
    StopsAt (discrete expr n)
      (.symbol .leftParen :: .ident type :: .symbol .comma ::
        (fs ++ (os ++ .symbol .comma :: (ns ++ [.symbol .colon])))) rest := by
  rcases List.forall_mem_cons.mp hshape with ⟨hshape, hshapes⟩
  have htail := outcomes_reads hexpr hothers hshapes (by omega)
  -- a comma follows the first outcome, so its weight ends there
  have hends : endsExpr
      ((os ++ Lexeme.symbol .comma :: (ns ++ [Lexeme.symbol .colon])) ++ rest).head? = true := by
    rw [List.append_assoc]
    exact follows_of_commaTail htail rfl rfl
  -- behind the label and the colon there is no weight to be read
  have hlast : StopsAt (outcome expr) (ns ++ [.symbol .colon]) rest :=
    .after (label_reads hlabel) (.andThen (.symbol .colon) (.first hweight _))
  exact .andThen (.symbol .leftParen) (.andThen (.ident type) (.andThen (.symbol .comma)
    (.after (firstOutcome_reads hexpr hfirst hshape (by omega) hends)
      (.first (commaTail_stops htail hlast hn rfl) _))))

/-- **Only the first outcome can have the rest of the weight.**  The reader of expressions stops
    at the word for it in any further outcome. -/
theorem expression_stops (type : String) {first : Outcome} {others : List Outcome}
    {label : String} {fs os ns : List Lexeme} (hfirst : first.FirstWritten fs)
    (hothers : CommaTail Outcome.Written others os) (hlabel : LabelWritten label ns)
    (hshape : ∀ o ∈ first :: others, o.isWellShaped = true) :
    StopsAt expression
      (.keyword .discrete :: .symbol .leftParen :: .ident type :: .symbol .comma ::
        (fs ++ (os ++ .symbol .comma :: (ns ++ [.symbol .colon]))))
      (.keyword .otherwise :: rest) := by
  refine .before .bound ?_
  generalize hlength : (_ : List Lexeme).length = length
  simp only [List.length_cons, List.length_append] at hlength
  refine .first (keyword_operand_stops (n := 2 * length) rfl ?_) _
  exact discrete_stops ((within_reads _).shorter (k := length) (by omega))
    (exprWithin_stops _ fun _ _ => rfl) type hfirst hothers hlabel hshape (by omega) (by omega)

/-! ### Documents -/

section Sections

variable {σ : Type} {body : Keyword → Option (Reader σ)} {complete : σ → Reader Unit}
  {ss : List σ} {ls l : List Lexeme} {n : Nat} {w : Keyword} {read : Reader σ}

/-- Sections stop in a section behind others. -/
theorem sections_stops (h : Items (ReadsSection body) ss ls) (hbody : body w = some read)
    (hread : StopsAt read l rest) (hn : ls.length < n)
    (hcomplete : ∀ s rest, GoesOn body rest.head? → Reads (complete s) [] rest ()) :
    StopsAt (sections body complete n) (ls ++ .keyword w :: l) rest := by
  -- over the sections before the one in which the reader stops
  induction h generalizing n with
  | nil =>
    rcases Nat.exists_eq_succ_of_ne_zero (Nat.ne_of_gt hn) with ⟨n, rfl⟩
    refine .seeing ?_
    simp only [hbody]
    exact .andThen .advance (.first hread _)
  | @cons s ss l' ls' hs hss ih =>
    rcases Nat.exists_eq_succ_of_ne_zero (Nat.ne_of_gt (Nat.zero_lt_of_lt hn)) with ⟨n, rfl⟩
    rcases hs with ⟨w', l', read', rfl, hbody', hread'⟩
    simp only [List.length_cons, List.length_append] at hn
    have hfollows : GoesOn body ((ls' ++ .keyword w :: l) ++ rest).head? := by
      rw [List.append_assoc]
      exact goesOn_of_sections hss (.inr ⟨w, rfl, by rw [hbody]; rfl⟩)
    rw [List.append_assoc]
    refine .seeing ?_
    simp only [hbody']
    exact .andThen .advance (.after (hread' _) (.before (hcomplete s _ hfollows)
      (.first (ih (by omega)) _)))

end Sections

/-- **A document stops where a section of its first domain does.** -/
theorem model_stops (name : String) {ss : List DomainSection} {ls l : List Lexeme} {w : Keyword}
    {read : Reader DomainSection} (h : Items (ReadsSection domainSection) ss ls)
    (hbody : domainSection w = some read) (hread : StopsAt read l rest) :
    StopsAt model (.keyword .domain :: .ident name :: .symbol .leftCurly :: (ls ++ .keyword w :: l))
      rest := by
  have hgoes : GoesOn domainSection ((ls ++ .keyword w :: l) ++ rest).head? := by
    rw [List.append_assoc]
    exact goesOn_of_sections h (.inr ⟨w, rfl, by rw [hbody]; rfl⟩)
  refine .before .bound (.first (.seeing (.andThen .advance (.first (.before .bound
    (.andThen (.ident name) (.andThen (.symbol .leftCurly) (.before
      (requirements_reads .none hgoes) (.first (sections_stops h hbody hread ?_ ?_) _))))) _))) _)
  · simp only [List.length_cons, List.length_append]
    omega
  · intro s rest hnext
    exact .before (followedBy_reads (afterDomainSection_of_goesOn hnext)) (announce_reads _)

end Rddl.Reader
