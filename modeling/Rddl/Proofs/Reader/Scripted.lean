/-
  Rddl/Proofs/Reader/Scripted.lean
  ================================
  **What a reader can do to its place in the text.**

  Every reader of the library is put together from seven steps: return, stop, look at
  the token ahead, take it, ask how much lies ahead, announce a section, and do one
  thing after another.  `Scripted` says so, `model_scripted` proves it of the reader of
  models, and what any run can do to a place follows from what the steps can do, by
  one induction (`Scripted.runsTo`).
-/
import Rddl.Proofs.Reader.Run

namespace Rddl

/-! ### The steps -/

/-- Why a reader stops of its own accord: a token that does not fit, or something missing in
    what was read. -/
def Stop.IsPlain : Stop → Prop
  | .unexpected => True
  | .fault cause => ∃ key, cause = .missingKey key

/-- A reader that is put together from the basic steps. -/
inductive Reader.Scripted : {α : Type} → Reader α → Prop
  | pure {α : Type} (a : α) : Reader.Scripted (Pure.pure a : Reader α)
  | stop {α : Type} {s : Stop} : s.IsPlain → Reader.Scripted (throw s : Reader α)
  | peek : Reader.Scripted Reader.peek
  | advance : Reader.Scripted Reader.advance
  | bound : Reader.Scripted Reader.bound
  | announce (title : String) : Reader.Scripted (Reader.note (.parsed title))
  | bind {α β : Type} {r : Reader α} {f : α → Reader β} :
      Reader.Scripted r → (∀ a, Reader.Scripted (f a)) → Reader.Scripted (r >>= f)

namespace Reader

variable {α : Type}

theorem unexpected_scripted : Scripted (unexpected : Reader α) := .stop trivial

theorem take_scripted (use : Lexeme → Option α) : Scripted (take use) := by
  refine .bind .peek fun next => ?_
  split
  · exact .bind .advance fun _ => .pure _
  · exact unexpected_scripted

theorem accept_scripted (l : Lexeme) : Scripted (accept l) := by
  refine .bind .peek fun next => ?_
  split
  · exact .bind .advance fun _ => .pure _
  · exact .pure _

theorem symbol_scripted (mark : Symbol) : Scripted (symbol mark) := take_scripted _

theorem keyword_scripted (word : Keyword) : Scripted (keyword word) := take_scripted _

theorem ident_scripted : Scripted ident := take_scripted _

theorem label_scripted : Scripted label := take_scripted _

/-! ### Lists -/

theorem commaTail_scripted {item : Reader α} (hitem : Scripted item) (n : Nat) :
    Scripted (commaTail item n) := by
  induction n with
  | zero => exact unexpected_scripted
  | succ n ih =>
    refine .bind (accept_scripted _) fun more => ?_
    split
    · exact .bind hitem fun _ => .bind ih fun _ => .pure _
    · exact .pure _

theorem commaList_scripted {item : Reader α} (hitem : Scripted item) (n : Nat) :
    Scripted (commaList item n) :=
  .bind hitem fun _ => .bind (commaTail_scripted hitem n) fun _ => .pure _

theorem looseList_scripted {item : Reader α} (hitem : Scripted item) (close : Symbol) (n : Nat) :
    Scripted (looseList item close n) := by
  refine .bind .peek fun next => ?_
  split
  · exact .bind (commaTail_scripted hitem n) fun _ => .bind (symbol_scripted _) fun _ => .pure _
  · exact .bind (commaList_scripted hitem n) fun _ => .bind (symbol_scripted _) fun _ => .pure _

theorem itemsToClose_scripted {item : Reader α} (hitem : Scripted item) (n : Nat) :
    Scripted (itemsToClose item n) := by
  induction n with
  | zero => exact unexpected_scripted
  | succ n ih =>
    refine .bind (accept_scripted _) fun closed => ?_
    split
    · exact .pure _
    · exact .bind hitem fun _ => .bind ih fun _ => .pure _

/-! ### Expressions -/

theorem termWithin_scripted (n : Nat) : Scripted (termWithin n) := by
  induction n with
  | zero => exact unexpected_scripted
  | succ n ih =>
    refine .bind .peek fun next => ?_
    split
    · exact .bind .advance fun _ => .pure _
    · exact .bind .advance fun _ => .pure _
    · refine .bind .advance fun _ => .bind (accept_scripted _) fun applied => ?_
      split
      · exact .bind (looseList_scripted ih _ n) fun _ => .pure _
      · exact .pure _
    · exact unexpected_scripted

theorem occurrenceTail_scripted (name : String) (n : Nat) :
    Scripted (occurrenceTail name n) := by
  refine .bind (accept_scripted _) fun applied => ?_
  split
  · exact .bind (looseList_scripted (termWithin_scripted n) _ n) fun _ => .pure _
  · exact .pure _

theorem typedVar_scripted : Scripted typedVar :=
  .bind (take_scripted _) fun _ => .bind (symbol_scripted _) fun _ =>
    .bind ident_scripted fun _ => .pure _

theorem typedVars_scripted (n : Nat) : Scripted (typedVars n) :=
  .bind (symbol_scripted _) fun _ => .bind (symbol_scripted _) fun _ =>
    .bind (commaList_scripted typedVar_scripted n) fun _ =>
      .bind (symbol_scripted _) fun _ => .pure _

section Parts

variable {expr : Reader Expr} (hexpr : Scripted expr)
include hexpr

theorem subject_scripted : Scripted (subject expr) := by
  refine .bind hexpr fun e => ?_
  split
  · exact .pure _
  · exact unexpected_scripted

theorem namedOperand_scripted (name : String) (n : Nat) :
    Scripted (namedOperand expr name n) := by
  refine .bind .peek fun next => ?_
  split
  · exact .bind .advance fun _ => .bind (commaList_scripted hexpr n) fun _ =>
      .bind (symbol_scripted _) fun _ => .pure _
  · exact .bind (typedVars_scripted n) fun _ => .bind hexpr fun _ => .pure _
  · exact .bind (occurrenceTail_scripted name n) fun _ => .pure _

theorem conditional_scripted : Scripted (conditional expr) :=
  .bind (symbol_scripted _) fun _ => .bind hexpr fun _ => .bind (symbol_scripted _) fun _ =>
    .bind (keyword_scripted _) fun _ => .bind hexpr fun _ => .bind (keyword_scripted _) fun _ =>
      .bind hexpr fun _ => .pure _

theorem switchCase_scripted : Scripted (switchCase expr) := by
  refine .bind .peek fun next => ?_
  split
  · exact .bind .advance fun _ => .bind (subject_scripted hexpr) fun _ =>
      .bind (symbol_scripted _) fun _ => .bind hexpr fun _ => .pure _
  · exact .bind .advance fun _ => .bind (symbol_scripted _) fun _ => .bind hexpr fun _ => .pure _
  · exact unexpected_scripted

theorem switch_scripted (n : Nat) : Scripted (switch expr n) :=
  .bind (symbol_scripted _) fun _ => .bind (subject_scripted hexpr) fun _ =>
    .bind (symbol_scripted _) fun _ => .bind (symbol_scripted _) fun _ =>
      .bind (commaList_scripted (switchCase_scripted hexpr) n) fun _ =>
        .bind (symbol_scripted _) fun _ => .pure _

theorem firstOutcome_scripted : Scripted (firstOutcome expr) := by
  refine .bind label_scripted fun _ => .bind (symbol_scripted _) fun _ =>
    .bind (accept_scripted _) fun last => ?_
  split
  · exact .pure _
  · exact .bind hexpr fun _ => .pure _

theorem outcome_scripted : Scripted (outcome expr) :=
  .bind label_scripted fun _ => .bind (symbol_scripted _) fun _ => .bind hexpr fun _ => .pure _

theorem discrete_scripted (n : Nat) : Scripted (discrete expr n) :=
  .bind (symbol_scripted _) fun _ => .bind ident_scripted fun _ =>
    .bind (symbol_scripted _) fun _ => .bind (firstOutcome_scripted hexpr) fun _ =>
      .bind (commaTail_scripted (outcome_scripted hexpr) n) fun _ =>
        .bind (symbol_scripted _) fun _ => .pure _

theorem dirichlet_scripted : Scripted (dirichlet expr) :=
  .bind (symbol_scripted _) fun _ => .bind ident_scripted fun _ =>
    .bind (symbol_scripted _) fun _ => .bind hexpr fun _ =>
      .bind (symbol_scripted _) fun _ => .pure _

theorem random_scripted (d : UnaryDistribution) : Scripted (random expr d) :=
  .bind (symbol_scripted _) fun _ => .bind hexpr fun _ => .bind (symbol_scripted _) fun _ => .pure _

theorem randomPair_scripted (d : BinaryDistribution) : Scripted (randomPair expr d) :=
  .bind (symbol_scripted _) fun _ => .bind hexpr fun _ => .bind (symbol_scripted _) fun _ =>
    .bind hexpr fun _ => .bind (symbol_scripted _) fun _ => .pure _

theorem keywordOperand_scripted {n : Nat} {word : Keyword} {r : Reader Expr}
    (hr : keywordOperand expr n word = some r) : Scripted r := by
  unfold keywordOperand at hr
  -- one case for each word, in the order of the definition; the distributions come last
  split at hr
  · cases hr
    exact .pure _
  · cases hr
    exact .pure _
  · cases hr
    exact .bind (typedVars_scripted n) fun _ => .bind hexpr fun _ => .pure _
  · cases hr
    exact .bind (typedVars_scripted n) fun _ => .bind hexpr fun _ => .pure _
  · cases hr
    exact conditional_scripted hexpr
  · cases hr
    exact switch_scripted hexpr n
  · cases hr
    exact discrete_scripted hexpr n
  · cases hr
    exact dirichlet_scripted hexpr
  · split at hr
    · cases hr
      exact random_scripted hexpr _
    · cases hr
      exact randomPair_scripted hexpr _
    · cases hr

end Parts

structure WithinScripted (n : Nat) : Prop where
  expr : Scripted (exprWithin n)
  chain : Scripted (chainWithin n)
  operand : Scripted (operandWithin n)

theorem operandWithin_succ_scripted {n : Nat} (ih : WithinScripted n) :
    Scripted (operandWithin (n + 1)) := by
  rw [operandWithin]
  refine .bind .peek fun next => ?_
  split
  · exact .bind .advance fun _ => .pure _
  · exact .bind .advance fun _ => .pure _
  · exact .bind .advance fun _ => .pure _
  · exact .bind .advance fun _ => .pure _
  · exact .bind .advance fun _ => namedOperand_scripted ih.expr _ n
  · exact .bind .advance fun _ => .bind ih.expr fun _ => .bind (symbol_scripted _) fun _ => .pure _
  · exact .bind .advance fun _ => .bind ih.expr fun _ => .bind (symbol_scripted _) fun _ => .pure _
  · exact .bind .advance fun _ => .bind ih.operand fun _ => .pure _
  · exact .bind .advance fun _ => .bind ih.operand fun _ => .pure _
  · exact .bind .advance fun _ => .bind ih.operand fun _ => .pure _
  · split
    · next hr => exact .bind .advance fun _ => keywordOperand_scripted ih.expr hr
    · exact unexpected_scripted
  · exact unexpected_scripted

theorem chainWithin_succ_scripted {n : Nat} (ih : WithinScripted n) :
    Scripted (chainWithin (n + 1)) := by
  rw [chainWithin]
  refine .bind .peek fun next => ?_
  split
  · exact .pure _
  · exact .bind .advance fun _ => .bind ih.operand fun _ => .bind ih.chain fun _ => .pure _

theorem within_scripted (n : Nat) : WithinScripted n := by
  induction n with
  | zero =>
    refine ⟨?_, ?_, ?_⟩
    · rw [exprWithin]
      exact unexpected_scripted
    · rw [chainWithin]
      exact unexpected_scripted
    · rw [operandWithin]
      exact unexpected_scripted
  | succ n ih =>
    refine ⟨?_, chainWithin_succ_scripted ih, operandWithin_succ_scripted ih⟩
    rw [exprWithin]
    exact .bind ih.operand fun _ => .bind ih.chain fun _ => .pure _

theorem expression_scripted : Scripted expression :=
  .bind .bound fun n => (within_scripted n).expr

theorem occurrence_scripted : Scripted occurrence :=
  .bind .bound fun n => .bind ident_scripted fun name => occurrenceTail_scripted name n

/-! ### Documents -/

theorem constant_scripted : Scripted constant := by
  refine .bind (accept_scripted _) fun negative => ?_
  split
  · exact take_scripted _
  · exact take_scripted _

theorem typeDecl_scripted : Scripted typeDecl := by
  refine .bind .bound fun n => .bind ident_scripted fun _ => .bind (symbol_scripted _) fun _ =>
    .bind (accept_scripted _) fun objects => ?_
  split
  · exact .bind (.pure _) fun _ => .bind (symbol_scripted _) fun _ => .pure _
  · exact .bind (symbol_scripted _) fun _ =>
      .bind (looseList_scripted (take_scripted _) _ n) fun _ =>
        .bind (.pure _) fun _ => .bind (symbol_scripted _) fun _ => .pure _

theorem valued_scripted (word : Keyword) : Scripted (valued word) :=
  .bind (symbol_scripted _) fun _ => .bind (keyword_scripted _) fun _ =>
    .bind (symbol_scripted _) fun _ => constant_scripted

theorem role_scripted (kind : FluentKind) : Scripted (role kind) := by
  cases kind with
  | observation => exact .pure _
  | nonFluent => exact .bind (valued_scripted _) fun _ => .pure _
  | state => exact .bind (valued_scripted _) fun _ => .pure _
  | action => exact .bind (valued_scripted _) fun _ => .pure _
  | intermediate => exact .bind (valued_scripted _) fun _ => .pure _

theorem pvarDecl_scripted : Scripted pvarDecl := by
  have hrest : ∀ name params, Scripted (pvarDeclRest name params) := fun name params =>
    .bind (symbol_scripted _) fun _ => .bind (symbol_scripted _) fun _ =>
      .bind (take_scripted _) fun kind => .bind (symbol_scripted _) fun _ =>
        .bind (take_scripted _) fun _ => .bind (role_scripted kind) fun _ =>
          .bind (symbol_scripted _) fun _ => .bind (symbol_scripted _) fun _ => .pure _
  rw [pvarDecl_eq]
  refine .bind .bound fun n => .bind ident_scripted fun name =>
    .bind (accept_scripted _) fun listed => ?_
  split
  · exact .bind (looseList_scripted ident_scripted _ n) fun _ => hrest _ _
  · exact hrest _ _

theorem cpfDecl_scripted : Scripted cpfDecl :=
  .bind occurrence_scripted fun _ => .bind (symbol_scripted _) fun _ =>
    .bind expression_scripted fun _ => .bind (symbol_scripted _) fun _ => .pure _

theorem condition_scripted : Scripted condition :=
  .bind expression_scripted fun _ => .bind (symbol_scripted _) fun _ => .pure _

theorem objectsDecl_scripted : Scripted objectsDecl :=
  .bind .bound fun n => .bind ident_scripted fun _ => .bind (symbol_scripted _) fun _ =>
    .bind (symbol_scripted _) fun _ => .bind (commaList_scripted ident_scripted n) fun _ =>
      .bind (symbol_scripted _) fun _ => .bind (symbol_scripted _) fun _ => .pure _

theorem assignmentArgs_scripted : Scripted assignmentArgs := by
  refine .bind .bound fun n => .bind (accept_scripted _) fun listed => ?_
  split
  · exact .bind (commaList_scripted label_scripted n) fun _ =>
      .bind (symbol_scripted _) fun _ => .pure _
  · exact .pure _

theorem assignment_scripted : Scripted assignment := by
  refine .bind (accept_scripted _) fun negative => ?_
  split
  · exact .bind ident_scripted fun _ => .bind assignmentArgs_scripted fun _ =>
      .bind (symbol_scripted _) fun _ => .pure _
  · refine .bind ident_scripted fun _ => .bind assignmentArgs_scripted fun _ =>
      .bind (accept_scripted _) fun valued => ?_
    split
    · exact .bind constant_scripted fun _ => .bind (symbol_scripted _) fun _ => .pure _
    · exact .bind (.pure _) fun _ => .bind (symbol_scripted _) fun _ => .pure _

theorem braced_scripted {item : Reader α} (hitem : Scripted item) : Scripted (braced item) :=
  .bind .bound fun n => .bind (symbol_scripted _) fun _ =>
    .bind (itemsToClose_scripted hitem n) fun _ => .bind (symbol_scripted _) fun _ => .pure _

theorem bracedSome_scripted {item : Reader α} (hitem : Scripted item) :
    Scripted (bracedSome item) :=
  .bind .bound fun n => .bind (symbol_scripted _) fun _ => .bind hitem fun _ =>
    .bind (itemsToClose_scripted hitem n) fun _ => .bind (symbol_scripted _) fun _ => .pure _

theorem domainSection_scripted {word : Keyword} {r : Reader DomainSection}
    (hr : domainSection word = some r) : Scripted r := by
  unfold domainSection at hr
  split at hr <;> cases hr
  · exact .bind (braced_scripted typeDecl_scripted) fun _ => .pure _
  · exact .bind (braced_scripted pvarDecl_scripted) fun _ => .pure _
  · exact .bind (braced_scripted cpfDecl_scripted) fun _ => .pure _
  · exact .bind (braced_scripted cpfDecl_scripted) fun _ => .pure _
  · exact .bind (symbol_scripted _) fun _ => .bind expression_scripted fun _ =>
      .bind (symbol_scripted _) fun _ => .pure _
  · exact .bind (braced_scripted condition_scripted) fun _ => .pure _
  · exact .bind (braced_scripted condition_scripted) fun _ => .pure _
  · exact .bind (braced_scripted condition_scripted) fun _ => .pure _

theorem assignedName_scripted : Scripted assignedName :=
  .bind (symbol_scripted _) fun _ => .bind ident_scripted fun _ =>
    .bind (symbol_scripted _) fun _ => .pure _

theorem horizon_scripted : Scripted horizon := by
  refine .bind (symbol_scripted _) fun _ => .bind (accept_scripted _) fun conditional => ?_
  split
  · exact .bind (symbol_scripted _) fun _ => .bind expression_scripted fun _ =>
      .bind (symbol_scripted _) fun _ => .pure _
  · exact .bind (take_scripted _) fun _ => .bind (symbol_scripted _) fun _ => .pure _

theorem nonFluentsSection_scripted {word : Keyword} {r : Reader NonFluentsSection}
    (hr : nonFluentsSection word = some r) : Scripted r := by
  unfold nonFluentsSection at hr
  split at hr <;> cases hr
  · exact .bind assignedName_scripted fun _ => .pure _
  · exact .bind (braced_scripted objectsDecl_scripted) fun _ => .pure _
  · exact .bind (bracedSome_scripted assignment_scripted) fun _ => .pure _

theorem instanceSection_scripted {word : Keyword} {r : Reader InstanceSection}
    (hr : instanceSection word = some r) : Scripted r := by
  unfold instanceSection at hr
  split at hr <;> cases hr
  · exact .bind assignedName_scripted fun _ => .pure _
  · exact .bind assignedName_scripted fun _ => .pure _
  · exact .bind (braced_scripted objectsDecl_scripted) fun _ => .pure _
  · exact .bind (bracedSome_scripted assignment_scripted) fun _ => .pure _
  · exact .bind (symbol_scripted _) fun _ => .bind (take_scripted _) fun _ =>
      .bind (symbol_scripted _) fun _ => .pure _
  · exact .bind horizon_scripted fun _ => .pure _
  · exact .bind (.bind (symbol_scripted _) fun _ => .bind (take_scripted _) fun _ =>
      .bind (symbol_scripted _) fun _ => .pure _) fun _ => .pure _

theorem followedBy_scripted (follows : Option Lexeme → Bool) : Scripted (followedBy follows) := by
  refine .bind .peek fun next => ?_
  split
  · exact .pure _
  · exact unexpected_scripted

theorem announce_scripted (title? : Option String) : Scripted (announce title?) := by
  cases title? with
  | none => exact .pure _
  | some title => exact .announce title

theorem sections_scripted {σ : Type} {body : Keyword → Option (Reader σ)}
    {complete : σ → Reader Unit} (hbody : ∀ word r, body word = some r → Scripted r)
    (hcomplete : ∀ s, Scripted (complete s)) (n : Nat) :
    Scripted (sections body complete n) := by
  induction n with
  | zero => exact unexpected_scripted
  | succ n ih =>
    refine .bind .peek fun next => ?_
    split
    · exact .bind .advance fun _ => .pure _
    · split
      · next hr =>
        exact .bind .advance fun _ => .bind (hbody _ _ hr) fun _ => .bind (hcomplete _) fun _ =>
          .bind ih fun _ => .pure _
      · exact unexpected_scripted
    · exact unexpected_scripted

theorem requirements_scripted : Scripted requirements := by
  have hend : ∀ names : Option (List String), Scripted (do
      followedBy afterDomainSection
      announce (some "requirements")
      pure names) := fun names =>
    .bind (followedBy_scripted _) fun _ => .bind (announce_scripted _) fun _ => .pure _
  refine .bind .bound fun n => .bind (accept_scripted _) fun given => ?_
  split
  · exact .bind (.bind (accept_scripted _) fun _ => .pure _) fun _ =>
      .bind (symbol_scripted _) fun _ => .bind (looseList_scripted ident_scripted _ n) fun _ =>
        .bind (symbol_scripted _) fun _ => .bind (.pure _) fun _ => hend _
  · exact .bind (.pure _) fun _ => hend _

theorem isPlain_of_ofBlock {b : DomainBlock} {cause : Fault} (h : Domain.ofBlock b = .error cause) :
    Stop.IsPlain (.fault cause) := by
  simp only [Domain.ofBlock, Domain.ofSections, Table.require] at h
  generalize Table.ofList (b.sections.map fun s => (s.key, s.datum)) = sections at h
  -- the three needed sections in the order in which they are asked for
  cases hpvariables : sections.find? "pvariables" with
  | none =>
    rw [hpvariables] at h
    cases h
    exact ⟨_, rfl⟩
  | some pvariables =>
    cases hcpfs : sections.find? "cpfs" with
    | none =>
      rw [hpvariables, hcpfs] at h
      cases h
      exact ⟨_, rfl⟩
    | some cpfs =>
      cases hreward : sections.find? "reward" with
      | none =>
        rw [hpvariables, hcpfs, hreward] at h
        cases h
        exact ⟨_, rfl⟩
      | some reward =>
        rw [hpvariables, hcpfs, hreward] at h
        cases h

theorem domainBlock_scripted : Scripted domainBlock := by
  refine .bind .bound fun n => .bind ident_scripted fun name => .bind (symbol_scripted _) fun _ =>
    .bind requirements_scripted fun needed =>
      .bind (sections_scripted (fun _ _ => domainSection_scripted) (fun _ =>
        .bind (followedBy_scripted _) fun _ => announce_scripted _) n) fun parts =>
          .bind (followedBy_scripted _) fun _ => ?_
  dsimp only
  split
  · exact .pure _
  · next hcause => exact .stop (isPlain_of_ofBlock hcause)

theorem plainBlock_scripted {σ β : Type} {body : Keyword → Option (Reader σ)}
    {complete : σ → Reader Unit} (hbody : ∀ word r, body word = some r → Scripted r)
    (hcomplete : ∀ s, Scripted (complete s)) (make : String → List σ → β) :
    Scripted (plainBlock body complete make) :=
  .bind .bound fun n => .bind ident_scripted fun _ => .bind (symbol_scripted _) fun _ =>
    .bind (sections_scripted hbody hcomplete n) fun _ => .bind (followedBy_scripted _) fun _ =>
      .pure _

theorem nonFluentsBlock_scripted : Scripted nonFluentsBlock :=
  plainBlock_scripted (fun _ _ => nonFluentsSection_scripted)
    (fun _ => .bind (followedBy_scripted _) fun _ => announce_scripted _) _

theorem instanceBlock_scripted : Scripted instanceBlock :=
  plainBlock_scripted (fun _ _ => instanceSection_scripted)
    (fun _ => .bind (followedBy_scripted _) fun _ => announce_scripted _) _

theorem blocks_scripted (n : Nat) : Scripted (blocks n) := by
  induction n with
  | zero => exact unexpected_scripted
  | succ n ih =>
    refine .bind .peek fun next => ?_
    split
    · exact .pure _
    · exact .bind .advance fun _ => .bind domainBlock_scripted fun _ => .bind ih fun _ => .pure _
    · exact .bind .advance fun _ => .bind nonFluentsBlock_scripted fun _ =>
        .bind ih fun _ => .pure _
    · exact .bind .advance fun _ => .bind instanceBlock_scripted fun _ => .bind ih fun _ => .pure _
    · exact unexpected_scripted

theorem isPlain_of_domain? {d : Document} {cause : Fault} (h : d.domain? = .error cause) :
    Stop.IsPlain (.fault cause) := by
  induction d with
  | nil => cases h
  | cons b d ih =>
    cases b with
    | nonFluents block => exact ih h
    | problem block => exact ih h
    -- this domain fails, or one behind it does
    | domain block =>
      rw [Document.domain?] at h
      cases hblock : Domain.ofBlock block with
      | error cause' =>
        rw [hblock] at h
        cases h
        exact isPlain_of_ofBlock hblock
      | ok domain =>
        rw [hblock] at h
        cases hrest : Document.domain? d with
        | error cause' =>
          rw [hrest] at h
          cases h
          exact ih hrest
        | ok rest =>
          rw [hrest] at h
          cases h

theorem isPlain_of_model {d : Document} {cause : Fault} (h : d.model = .error cause) :
    Stop.IsPlain (.fault cause) := by
  rw [Document.model] at h
  cases hdomain : d.domain? with
  | error cause' =>
    rw [hdomain] at h
    cases h
    exact isPlain_of_domain? hdomain
  | ok domain? =>
    rw [hdomain] at h
    change Model.ofBlocks domain? d.nonFluents? d.problem? = _ at h
    unfold Model.ofBlocks at h
    split at h <;> cases h <;> exact ⟨_, rfl⟩

/-- **The reader of models is put together from the basic steps.** -/
theorem model_scripted : Scripted Reader.model := by
  refine .bind .bound fun n => .bind (blocks_scripted n) fun document => ?_
  split
  · exact .pure _
  · next hcause => exact .stop (isPlain_of_model hcause)

end Reader

/-! ### What a run can do -/

namespace Message

def isError : Message → Bool
  | .rejected _ => true
  | .cutOff => true
  | _ => false

end Message

namespace Scan

theorem isError_of_mem_skipped {s : Scan} {m : Message} (h : m ∈ s.skipped) :
    m.isError = false := by
  induction s with
  | illegal c line rest ih =>
    rcases List.mem_cons.mp h with rfl | h
    · rfl
    · exact ih h
  | token t rest ih => simp [skipped] at h
  | overlong digits line => simp [skipped] at h
  | finished line => simp [skipped] at h

end Scan

namespace Cursor

/-- A later place in the same text, reached without a syntax error. -/
structure Passes (c c' : Cursor) : Prop where
  /-- Tokens are taken from the front, one after another. -/
  tokens : c'.ahead.tokens <:+ c.ahead.tokens
  log : ∃ new, c'.log = new ++ c.log ∧ ∀ m ∈ new, m.isError = false
  patience : c'.patience ≤ c.patience
  fault : c'.ahead.fault? = c.ahead.fault?

def Settled (c : Cursor) : Prop :=
  (∃ t rest, c.ahead = .token t rest) ∨ ∃ line, c.ahead = .finished line

def RunsTo {α : Type} (c : Cursor) : EStateM.Result Stop Cursor α → Prop
  | .ok _ c' => c.Passes c' ∧ (c.Settled → c'.Settled)
  | .error _ c' => c.Passes c'

theorem Passes.refl (c : Cursor) : c.Passes c :=
  ⟨List.suffix_refl _, ⟨[], rfl, by simp⟩, Nat.le_refl _, rfl⟩

theorem Passes.trans {c₁ c₂ c₃ : Cursor} (h : c₁.Passes c₂) (h' : c₂.Passes c₃) :
    c₁.Passes c₃ := by
  obtain ⟨new, hlog, hnew⟩ := h.log
  obtain ⟨new', hlog', hnew'⟩ := h'.log
  refine ⟨h'.tokens.trans h.tokens, ⟨new' ++ new, by simp [hlog, hlog'], ?_⟩,
    Nat.le_trans h'.patience h.patience, h'.fault.trans h.fault⟩
  intro m hm
  rcases List.mem_append.mp hm with hm | hm
  · exact hnew' m hm
  · exact hnew m hm

theorem Passes.lexemes {c c' : Cursor} (h : c.Passes c') : c'.lexemes <:+ c.lexemes :=
  h.tokens.map Token.lexeme

/-- Going on with what stands behind a token passes on. -/
theorem runsTo_enter {c : Cursor} {t : Token} {rest : Scan} {patience : Nat}
    (hahead : c.ahead = .token t rest) (hpatience : patience ≤ c.patience) :
    c.RunsTo (Reader.enter rest c.log patience c) := by
  have hpasses : c.Passes ⟨rest.settled, rest.skipped.reverse ++ c.log, patience⟩ := by
    refine ⟨?_, ⟨_, rfl, ?_⟩, hpatience, ?_⟩
    · simp [hahead, Scan.tokens]
    · intro m hm
      exact Scan.isError_of_mem_skipped (List.mem_reverse.mp hm)
    · simp [hahead, Scan.fault?]
  rw [Reader.enter_run]
  rcases rest.settled_cases with ⟨t', rest', h⟩ | ⟨digits, line, h⟩ | ⟨line, h⟩
  · simp only [h] at hpasses ⊢
    exact ⟨hpasses, fun _ => .inl ⟨t', rest', rfl⟩⟩
  · simp only [h] at hpasses ⊢
    exact hpasses
  · simp only [h] at hpasses ⊢
    exact ⟨hpasses, fun _ => .inr ⟨line, rfl⟩⟩

end Cursor

namespace Reader

open Cursor

/-- **A run of a scripted reader only passes on.** -/
theorem Scripted.runsTo {α : Type} {r : Reader α} (hr : Scripted r) (c : Cursor) :
    c.RunsTo (r c) := by
  induction hr generalizing c with
  -- most steps stay where they are
  | pure a => exact ⟨.refl c, id⟩
  | stop _ => exact .refl c
  | peek =>
    rw [peek_run]
    exact ⟨.refl c, id⟩
  | advance =>
    rw [advance_run]
    split
    · next hahead => exact runsTo_enter hahead (Nat.sub_le _ _)
    · exact .refl c
  | bound => exact ⟨.refl c, id⟩
  | announce title =>
    refine ⟨⟨List.suffix_refl _, ⟨[.parsed title], rfl, ?_⟩, Nat.le_refl _, rfl⟩, id⟩
    simp [Message.isError]
  -- two steps: the way of the first goes on with that of the second, unless the first stops
  | bind hr hf ihr ihf =>
    rename_i r f
    have hfirst := ihr c
    change c.RunsTo (EStateM.bind r f c)
    unfold EStateM.bind
    cases h : r c with
    | error s c₁ =>
      rw [h] at hfirst
      exact hfirst
    | ok a c₁ =>
      rw [h] at hfirst
      have hsecond := ihf a c₁
      change c.RunsTo (f a c₁)
      cases h' : f a c₁ with
      | error s c₂ =>
        rw [h'] at hsecond
        exact hfirst.1.trans hsecond
      | ok b c₂ =>
        rw [h'] at hsecond
        exact ⟨hfirst.1.trans hsecond.1, fun hset => hsecond.2 (hfirst.2 hset)⟩

section Runs

variable {α : Type} {r : Reader α} {c c' : Cursor}

theorem Scripted.passes_of_ok (hr : Scripted r) {a : α} (h : r c = .ok a c') : c.Passes c' := by
  have hrun := hr.runsTo c
  rw [h] at hrun
  exact hrun.1

theorem Scripted.settled_of_ok (hr : Scripted r) {a : α} (h : r c = .ok a c')
    (hset : c.Settled) : c'.Settled := by
  have hrun := hr.runsTo c
  rw [h] at hrun
  exact hrun.2 hset

theorem Scripted.passes_of_error (hr : Scripted r) {s : Stop} (h : r c = .error s c') :
    c.Passes c' := by
  have hrun := hr.runsTo c
  rwa [h] at hrun

end Runs

end Reader

end Rddl
