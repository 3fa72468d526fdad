/-
  Rddl/Proofs/Reader/ReadsDocument.lean
  =====================================
  **Documents are read as they are written.**

  In front of lexemes that spell a well-shaped document the reader of documents takes all
  of them and returns the document, unless one of its domains lacks a section that it
  needs: then it fails at the first such domain (`blocks_runs`).  `Runs` is `Reads` with
  this second way to end.
-/
import Rddl.Proofs.Reader.ReadsExpr
import Rddl.Proofs.Syntax.Document

namespace Rddl.Reader

variable {α β : Type} {rest : List Lexeme}

/-! ### Lists of items -/

/-- An item is read whatever follows it, and does not start with a closing brace. -/
def ReadsItem (item : Reader α) (a : α) (ls : List Lexeme) : Prop :=
  (∀ rest, Reads item ls rest a) ∧ ∃ x xs, ls = x :: xs ∧ x ≠ .symbol .rightCurly

section Items

variable {item : Reader α} {as : List α} {ls : List Lexeme} {n : Nat}

theorem itemsToClose_reads (h : Items (ReadsItem item) as ls) (hn : ls.length < n) :
    Reads (itemsToClose item n) (ls ++ [.symbol .rightCurly]) rest as := by
  induction h generalizing n with
  | nil =>
    obtain ⟨n, rfl⟩ := Nat.exists_eq_succ_of_ne_zero (Nat.ne_of_gt hn)
    exact .accepting (.pure [])
  | cons ha _ ih =>
    obtain ⟨n, rfl⟩ := Nat.exists_eq_succ_of_ne_zero (Nat.ne_of_gt (Nat.zero_lt_of_lt hn))
    obtain ⟨hread, x, xs, rfl, hx⟩ := ha
    simp only [List.length_cons, List.length_append] at hn
    rw [List.append_assoc]
    refine .refusing ?_ (.bind (hread _) (.returning (ih (by omega)) _))
    simpa using hx

theorem inBraces_eq (ls : List Lexeme) :
    inBraces ls =
      .symbol .leftCurly :: ((ls ++ [.symbol .rightCurly]) ++ [.symbol .semicolon]) := by
  simp [inBraces]

theorem braced_reads (h : Items (ReadsItem item) as ls) :
    Reads (braced item) (inBraces ls) rest as := by
  rw [inBraces_eq]
  refine .before .bound (.andThen (.symbol .leftCurly) (.bind (itemsToClose_reads h ?_)
    (.returning (.symbol .semicolon) fun _ => as)))
  simp only [List.length_cons, List.length_append]
  omega

theorem bracedSome_reads {a : α} (h : Items (ReadsItem item) (a :: as) ls) :
    Reads (bracedSome item) (inBraces ls) rest (a :: as) := by
  cases h with
  | @cons _ _ l ls' ha has =>
    have hsplit : inBraces (l ++ ls') = .symbol .leftCurly ::
        (l ++ ((ls' ++ [.symbol .rightCurly]) ++ [.symbol .semicolon])) := by simp [inBraces]
    rw [hsplit]
    refine .before .bound (.andThen (.symbol .leftCurly) (.bind (ha.1 _)
      (.bind (itemsToClose_reads has ?_) (.returning (.symbol .semicolon) fun _ => a :: as))))
    simp only [List.length_cons, List.length_append]
    omega

/-- Names of a loose list. -/
theorem looseNames_reads {item : Reader String} {W : String → List Lexeme → Prop} {close : Symbol}
    {names : List String} (h : LooseList W names ls) (hn : ls.length < n) (hclose : close ≠ .comma)
    (hitem : ∀ name l, W name l →
      (∀ rest, Reads item l rest name) ∧ ∃ x xs, l = x :: xs ∧ ∀ m, x ≠ .symbol m) :
    Reads (looseList item close n) (ls ++ [.symbol close]) rest names := by
  have hlist : LooseList (fun a l => ReadsWhere item (fun _ => True) a l ∧
      ∃ x xs, l = x :: xs ∧ ∀ m, x ≠ .symbol m) names ls :=
    h.imp fun name l _ hw => ⟨fun rest _ => (hitem name l hw).1 rest, (hitem name l hw).2⟩
  exact looseList_reads hlist hn trivial trivial hclose

theorem looseIdents_reads {close : Symbol} {names : List String}
    (h : LooseList IdentWritten names ls) (hn : ls.length < n) (hclose : close ≠ .comma) :
    Reads (looseList ident close n) (ls ++ [.symbol close]) rest names := by
  refine looseNames_reads h hn hclose ?_
  rintro name _ ⟨⟩
  exact ⟨fun _ => .ident name, _, _, rfl, fun _ => Lexeme.noConfusion⟩

end Items

/-! ### Constants and declarations -/

theorem constant_reads {k : Constant} {ls : List Lexeme} (h : k.Written ls) :
    Reads constant ls rest k := by
  cases h with
  | negatedReal value => exact .accepting (.take rfl)
  | negatedInteger value => exact .accepting (.take rfl)
  | truth value => cases value <;> exact .refusing (by simp [truthKeyword]) (.take rfl)
  | _ => exact .refusing (by simp) (.take rfl)

theorem typeDecl_reads {d : TypeDecl} {ls : List Lexeme} (h : d.Written ls) :
    ReadsItem typeDecl d ls := by
  cases h with
  | objects name =>
    refine ⟨fun rest => ?_, _, _, rfl, by simp⟩
    exact .before .bound (.andThen (.ident name) (.andThen (.symbol .colon)
      (.accepting (.before (.pure TypeBody.objects) (.returning (.symbol .semicolon) _)))))
  | @enumeration name values ls hvalues =>
    refine ⟨fun rest => ?_, _, _, rfl, by simp⟩
    -- the values are a loose list: there may be none, or a comma before the first
    have hlist : ∀ {n rest}, ls.length < n →
        Reads (looseList enumValue .rightCurly n) (ls ++ [.symbol .rightCurly]) rest values := by
      intro n rest hn
      refine looseNames_reads hvalues hn (by simp) ?_
      rintro _ _ ⟨⟩
      exact ⟨fun _ => .take rfl, _, _, rfl, fun _ => Lexeme.noConfusion⟩
    rw [inBraces_eq]
    refine .before .bound (.andThen (.ident name) (.andThen (.symbol .colon)
      (.refusing (by simp) (.andThen (.symbol .leftCurly) (.bind (hlist ?_)
        (.before (.pure (TypeBody.enumeration values)) (.returning (.symbol .semicolon) _)))))))
    simp only [List.length_cons, List.length_append]
    omega

theorem range_reads {type : String} {l : Lexeme} (h : RangeWritten type l) :
    Reads range [l] rest type := by
  cases h <;> exact .take rfl

theorem fluentKind_reads (kind : FluentKind) :
    Reads fluentKind [.keyword kind.keyword] rest kind := by
  cases kind <;> exact .take rfl

theorem valued_reads (word : Keyword) {k : Constant} {ls : List Lexeme} (h : k.Written ls) :
    Reads (valued word) (.symbol .comma :: .keyword word :: .symbol .assign :: ls) rest k :=
  .andThen (.symbol .comma) (.andThen (.keyword word) (.andThen (.symbol .assign)
    (constant_reads h)))

theorem role_reads {r : Role} {ls : List Lexeme} (h : r.Written ls) :
    Reads (role r.kind) ls rest r := by
  cases h with
  | observation => exact .pure _
  | nonFluent hdefault => exact .returning (valued_reads .defaultWord hdefault) _
  | state hdefault => exact .returning (valued_reads .defaultWord hdefault) _
  | action hdefault => exact .returning (valued_reads .defaultWord hdefault) _
  | intermediate hlevel => exact .returning (valued_reads .level hlevel) _

theorem pvarDeclRest_reads (name : String) (params : Option (List String)) {type : String}
    {r : Role} {l : Lexeme} {rs : List Lexeme} (htype : RangeWritten type l)
    (hrole : r.Written rs) :
    Reads (pvarDeclRest name params) (.symbol .colon :: .symbol .leftCurly ::
      .keyword r.kind.keyword :: .symbol .comma :: l ::
        (rs ++ [.symbol .rightCurly, .symbol .semicolon])) rest ⟨name, params, type, r⟩ :=
  .andThen (.symbol .colon) (.andThen (.symbol .leftCurly) (.andThen (fluentKind_reads r.kind)
    (.andThen (.symbol .comma) (.andThen (range_reads htype) (.bind (role_reads hrole)
      (.andThen (.symbol .rightCurly) (.returning (.symbol .semicolon) _)))))))

theorem pvarDecl_reads {d : PVarDecl} {ls : List Lexeme} (h : d.Written ls) :
    ReadsItem pvarDecl d ls := by
  cases h with
  | mk name hparams htype hrole =>
    refine ⟨fun rest => ?_, _, _, rfl, by simp⟩
    rw [pvarDecl_eq]
    refine .before .bound (.andThen (.ident name) ?_)
    cases hparams with
    | none => exact .refusing (by simp) (pvarDeclRest_reads name none htype hrole)
    | @some types ls htypes =>
      rw [List.cons_append]
      refine .accepting (.bind (looseIdents_reads htypes ?_ (by simp))
        (pvarDeclRest_reads name (some types) htype hrole))
      simp only [List.length_cons, List.length_append]
      omega

theorem wholeOccurrence_reads {o : Occurrence} {ls : List Lexeme} (h : o.Written ls)
    (hrest : rest.head? ≠ some (.symbol .leftParen)) : Reads occurrence ls rest o := by
  cases h with
  | plain name =>
    exact .before .bound (.andThen (.ident name) (.refusing hrest (.pure _)))
  | applied name hargs =>
    refine .before .bound (.andThen (.ident name) (occurrenceTail_reads name hargs ?_))
    simp only [List.length_cons, List.length_append]
    omega

theorem cpfDecl_reads {d : CpfDecl} {ls : List Lexeme} (h : d.Written ls)
    (hshape : d.body.isWellShaped = true) : ReadsItem cpfDecl d ls := by
  cases h with
  | mk htarget hbody =>
    refine ⟨fun rest => ?_, ?_⟩
    · exact .bind (wholeOccurrence_reads htarget (by simp)) (.andThen (.symbol .assign)
        (.bind (expression_reads hbody hshape rfl) (.returning (.symbol .semicolon) _)))
    · cases htarget <;> exact ⟨_, _, rfl, by simp⟩

theorem condition_reads {e : Expr} {ls : List Lexeme} (h : ConditionWritten e ls)
    (hshape : e.isWellShaped = true) : ReadsItem condition e ls := by
  cases h with
  | mk htest =>
    refine ⟨fun rest => ?_, ?_⟩
    · exact .bind (expression_reads htest hshape rfl)
        (.returning (.symbol .semicolon) fun _ => e)
    · obtain ⟨x, xs, rfl, -, hx⟩ := htest.starts
      exact ⟨x, _, rfl, hx⟩

theorem objectsDecl_reads {d : ObjectsDecl} {ls : List Lexeme} (h : d.Written ls) :
    ReadsItem objectsDecl d ls := by
  cases h with
  | @mk type objects ls hobjects =>
    refine ⟨fun rest => ?_, _, _, rfl, by simp⟩
    have hlist : CommaList (ReadsWhere ident fun _ => True) objects ls :=
      hobjects.imp fun _ _ _ hname _ _ => by
        cases hname
        exact .ident _
    refine .before .bound (.andThen (.ident type) (.andThen (.symbol .colon)
      (.andThen (.symbol .leftCurly) (.bind (commaList_reads hlist ?_ trivial trivial (by simp))
        (.andThen (.symbol .rightCurly) (.returning (.symbol .semicolon) _))))))
    simp only [List.length_cons, List.length_append, inBraces]
    omega

/-- What follows the arguments of an assignment is no argument list. -/
theorem assignmentArgs_reads {args : Option (List String)} {ls : List Lexeme}
    (h : ArgsWritten args ls) (hrest : rest.head? ≠ some (.symbol .leftParen)) :
    Reads assignmentArgs ls rest args := by
  cases h with
  | none => exact .before .bound (.refusing hrest (.pure none))
  | @some args ls hargs =>
    have hlist : CommaList (ReadsWhere label fun _ => True) args ls :=
      hargs.imp fun _ _ _ hlabel _ _ => label_reads hlabel
    refine .before .bound (.accepting (.bind (commaList_reads hlist ?_ trivial trivial (by simp))
      (.returning (.symbol .rightParen) _)))
    simp only [List.length_cons, List.length_append]
    omega

theorem assignment_reads {a : Assignment} {ls : List Lexeme} (h : a.Written ls) :
    ReadsItem assignment a ls := by
  cases h with
  | negated name hargs =>
    refine ⟨fun rest => ?_, _, _, rfl, by simp⟩
    exact .accepting (.andThen (.ident name) (.bind (assignmentArgs_reads hargs (by simp))
      (.returning (.symbol .semicolon) _)))
  | plain name hargs =>
    refine ⟨fun rest => ?_, _, _, rfl, by simp⟩
    exact .refusing (by simp) (.andThen (.ident name)
      (.bind (assignmentArgs_reads hargs (by simp)) (.refusing (by simp)
        (.before (.pure (Constant.truth true)) (.returning (.symbol .semicolon) _)))))
  | valued name hargs hvalue =>
    refine ⟨fun rest => ?_, _, _, rfl, by simp⟩
    exact .refusing (by simp) (.andThen (.ident name)
      (.bind (assignmentArgs_reads hargs (by simp)) (.accepting
        (.bind (constant_reads hvalue) (.returning (.symbol .semicolon) _)))))

theorem count_reads {b : Bound} {l : Lexeme} (h : b.Written l) : Reads count [l] rest b := by
  cases h <;> exact .take rfl

/-! ### Sections -/

/-- A section is read by the reader that belongs to its keyword. -/
def ReadsSection {σ : Type} (body : Keyword → Option (Reader σ)) (s : σ) (ls : List Lexeme) :
    Prop :=
  ∃ w l read, ls = .keyword w :: l ∧ body w = some read ∧ ∀ rest, Reads read l rest s

theorem functions_reads {decls : List CpfDecl} {ls : List Lexeme}
    (h : Items CpfDecl.Written decls ls) (hshape : ∀ d ∈ decls, d.body.isWellShaped = true) :
    Reads (braced cpfDecl) (inBraces ls) rest decls :=
  braced_reads ((h.carrying hshape).imp fun _ _ hd => cpfDecl_reads hd.2 hd.1)

theorem conditions_reads {conditions : List Expr} {ls : List Lexeme}
    (h : Items ConditionWritten conditions ls)
    (hshape : ∀ e ∈ conditions, e.isWellShaped = true) :
    Reads (braced condition) (inBraces ls) rest conditions :=
  braced_reads ((h.carrying hshape).imp fun _ _ he => condition_reads he.2 he.1)

theorem domainSection_reads {s : DomainSection} {ls : List Lexeme} (h : s.Written ls)
    (hshape : ∀ e ∈ s.expressions, e.isWellShaped = true) :
    ReadsSection domainSection s ls := by
  cases h with
  -- sections in braces, item after item
  | types hdecls =>
    refine ⟨_, _, _, rfl, rfl, fun rest => ?_⟩
    exact .returning (braced_reads (hdecls.imp fun _ _ => typeDecl_reads)) _
  | pvariables hdecls =>
    refine ⟨_, _, _, rfl, rfl, fun rest => ?_⟩
    exact .returning (braced_reads (hdecls.imp fun _ _ => pvarDecl_reads)) _
  | cpfs hdecls =>
    refine ⟨_, _, _, rfl, rfl, fun rest => ?_⟩
    exact .returning (functions_reads hdecls (by simpa [DomainSection.expressions] using hshape)) _
  | cdfs hdecls =>
    refine ⟨_, _, _, rfl, rfl, fun rest => ?_⟩
    exact .returning (functions_reads hdecls (by simpa [DomainSection.expressions] using hshape)) _
  -- the reward has no braces, and its expression ends before the semicolon
  | reward hbody =>
    refine ⟨_, _, _, rfl, rfl, fun rest => ?_⟩
    exact .andThen (.symbol .assign) (.bind
      (expression_reads hbody (hshape _ (by simp [DomainSection.expressions])) rfl)
      (.returning (.symbol .semicolon) _))
  | preconditions hconditions =>
    exact ⟨_, _, _, rfl, rfl, fun rest => .returning (conditions_reads hconditions hshape) _⟩
  | constraints hconditions =>
    exact ⟨_, _, _, rfl, rfl, fun rest => .returning (conditions_reads hconditions hshape) _⟩
  | invariants hconditions =>
    exact ⟨_, _, _, rfl, rfl, fun rest => .returning (conditions_reads hconditions hshape) _⟩

theorem assignedName_reads (name : String) :
    Reads assignedName [.symbol .assign, .ident name, .symbol .semicolon] rest name :=
  .andThen (.symbol .assign) (.andThen (.ident name)
    (.returning (.symbol .semicolon) fun _ => name))

theorem objects_reads {decls : List ObjectsDecl} {ls : List Lexeme}
    (h : Items ObjectsDecl.Written decls ls) :
    Reads (braced objectsDecl) (inBraces ls) rest decls :=
  braced_reads (h.imp fun _ _ => objectsDecl_reads)

theorem assignments_reads {first : Assignment} {others : List Assignment} {ls : List Lexeme}
    (h : Items Assignment.Written (first :: others) ls) :
    Reads (bracedSome assignment) (inBraces ls) rest (first :: others) :=
  bracedSome_reads (h.imp fun _ _ => assignment_reads)

theorem nonFluentsSection_reads {s : NonFluentsSection} {ls : List Lexeme} (h : s.Written ls) :
    ReadsSection nonFluentsSection s ls := by
  cases h with
  | domain name => exact ⟨_, _, _, rfl, rfl, fun rest => .returning (assignedName_reads name) _⟩
  | objects hdecls => exact ⟨_, _, _, rfl, rfl, fun rest => .returning (objects_reads hdecls) _⟩
  | values hvalues =>
    exact ⟨_, _, _, rfl, rfl, fun rest => .returning (assignments_reads hvalues) _⟩

theorem horizon_reads {limit : Horizon} {ls : List Lexeme} (h : limit.Written ls)
    (hshape : ∀ e ∈ (InstanceSection.horizon limit).expressions, e.isWellShaped = true) :
    Reads horizon ls rest limit := by
  cases h with
  | steps hcount =>
    refine .andThen (.symbol .assign) (.refusing ?_ (.andThen (count_reads hcount)
      (.returning (.symbol .semicolon) _)))
    cases hcount <;> simp
  | condition htest =>
    exact .andThen (.symbol .assign) (.accepting (.andThen (.symbol .leftParen) (.bind
      (expression_reads htest (hshape _ (by simp [InstanceSection.expressions])) rfl)
      (.returning (.symbol .rightParen) _))))

theorem instanceSection_reads {s : InstanceSection} {ls : List Lexeme} (h : s.Written ls)
    (hshape : ∀ e ∈ s.expressions, e.isWellShaped = true) :
    ReadsSection instanceSection s ls := by
  cases h with
  | domain name => exact ⟨_, _, _, rfl, rfl, fun rest => .returning (assignedName_reads name) _⟩
  | nonFluents name =>
    exact ⟨_, _, _, rfl, rfl, fun rest => .returning (assignedName_reads name) _⟩
  | objects hdecls => exact ⟨_, _, _, rfl, rfl, fun rest => .returning (objects_reads hdecls) _⟩
  | initialState hvalues =>
    exact ⟨_, _, _, rfl, rfl, fun rest => .returning (assignments_reads hvalues) _⟩
  -- what follows is a value between an equals sign and a semicolon
  | maxActions hcount =>
    refine ⟨_, _, _, rfl, rfl, fun rest => ?_⟩
    exact .andThen (.symbol .assign) (.andThen (count_reads hcount)
      (.returning (.symbol .semicolon) _))
  | horizon hlimit =>
    exact ⟨_, _, _, rfl, rfl, fun rest => .returning (horizon_reads hlimit hshape) _⟩
  | discount factor =>
    refine ⟨_, _, _, rfl, rfl, fun rest => .returning ?_ _⟩
    exact .andThen (.symbol .assign) (.andThen (.take rfl)
      (.returning (.symbol .semicolon) fun _ => factor))

/-! ### Blocks -/

theorem followedBy_reads {follows : Option Lexeme → Bool} (h : follows rest.head? = true) :
    Reads (followedBy follows) [] rest () := by
  refine .before .peek ?_
  rw [List.nil_append, if_pos h]
  exact .pure ()

theorem announce_reads (title? : Option String) : Reads (announce title?) [] rest () := by
  cases title? with
  | none => exact .pure ()
  | some title => exact .note (.parsed title)

/-- Another section stands ahead, or the end of the block. -/
def GoesOn {σ : Type} (body : Keyword → Option (Reader σ)) (next : Option Lexeme) : Prop :=
  next = some (.symbol .rightCurly) ∨ ∃ w, next = some (.keyword w) ∧ (body w).isSome = true

section Sections

variable {σ : Type} {body : Keyword → Option (Reader σ)} {complete : σ → Reader Unit}
  {ss : List σ} {ls : List Lexeme} {n : Nat}

theorem goesOn_of_sections (h : Items (ReadsSection body) ss ls) (hrest : GoesOn body rest.head?) :
    GoesOn body (ls ++ rest).head? := by
  cases h with
  | nil => exact hrest
  | cons hs _ =>
    obtain ⟨w, l, read, rfl, hbody, -⟩ := hs
    exact .inr ⟨w, rfl, by rw [hbody]; rfl⟩

theorem sections_reads (h : Items (ReadsSection body) ss ls) (hn : ls.length < n)
    (hcomplete : ∀ s rest, GoesOn body rest.head? → Reads (complete s) [] rest ()) :
    Reads (sections body complete n) (ls ++ [.symbol .rightCurly]) rest ss := by
  induction h generalizing n with
  | nil =>
    obtain ⟨n, rfl⟩ := Nat.exists_eq_succ_of_ne_zero (Nat.ne_of_gt hn)
    exact .seeing (.andThen .advance (.pure []))
  | @cons s ss l ls' hs hss ih =>
    obtain ⟨n, rfl⟩ := Nat.exists_eq_succ_of_ne_zero (Nat.ne_of_gt (Nat.zero_lt_of_lt hn))
    obtain ⟨w, l, read, rfl, hbody, hread⟩ := hs
    simp only [List.length_cons, List.length_append] at hn
    have hfollows : GoesOn body ((ls' ++ [Lexeme.symbol .rightCurly]) ++ rest).head? := by
      rw [List.append_assoc]
      exact goesOn_of_sections hss (.inl rfl)
    rw [List.append_assoc]
    refine .seeing ?_
    simp only [hbody]
    exact .andThen .advance (.bind (hread _) (.before (hcomplete s _ hfollows)
      (.returning (ih (by omega)) _)))

end Sections

theorem afterDomainSection_of_goesOn {next : Option Lexeme} (h : GoesOn domainSection next) :
    afterDomainSection next = true := by
  rcases h with rfl | ⟨w, rfl, hw⟩
  · rfl
  · exact hw

theorem afterInstanceSection_of_goesOn {next : Option Lexeme} (h : GoesOn instanceSection next) :
    afterInstanceSection next = true := by
  rcases h with rfl | ⟨w, rfl, hw⟩
  · rfl
  · exact hw

/-- A section that a non-fluents block may have, an instance may have too. -/
theorem afterNonFluents_of_goesOn (s : NonFluentsSection) {next : Option Lexeme}
    (h : GoesOn nonFluentsSection next) : afterNonFluents s next = true := by
  rcases h with rfl | ⟨w, rfl, hw⟩
  · cases s <;> rfl
  · cases s with
    | values _ => exact hw
    | _ => cases w <;> first | rfl | simp [nonFluentsSection] at hw

theorem requirements_reads {needed : Option (List String)} {ls : List Lexeme}
    (h : RequirementsWritten needed ls) (hrest : GoesOn domainSection rest.head?) :
    Reads requirements ls rest needed := by
  have hend : Reads (do
      followedBy afterDomainSection
      announce (some "requirements")
      pure needed) [] rest needed :=
    .before (followedBy_reads (afterDomainSection_of_goesOn hrest))
      (.before (announce_reads _) (.pure needed))
  cases h with
  | none =>
    refine .before .bound (.refusing ?_ (.before (.pure none) hend))
    -- neither the end of the block nor a word of a section opens the requirements
    rcases hrest with hnext | ⟨w, hnext, hw⟩
    · simp [hnext]
    · rintro heq
      cases hnext.symm.trans heq
      simp [domainSection] at hw
  | @plain names ls hnames =>
    rw [inBraces_eq]
    refine .before .bound (.accepting (.before (.discard (.accept_false (by simp)))
      (.andThen (.symbol .leftCurly) (.bind (looseIdents_reads hnames ?_ (by simp))
        (.andThen (.symbol .semicolon) (.before (.pure (some names)) hend))))))
    simp only [List.length_cons, List.length_append]
    omega
  | @assigned names ls hnames =>
    rw [inBraces_eq]
    refine .before .bound (.accepting (.andThen (.discard .accept_true)
      (.andThen (.symbol .leftCurly) (.bind (looseIdents_reads hnames ?_ (by simp))
        (.andThen (.symbol .semicolon) (.before (.pure (some names)) hend))))))
    simp only [List.length_cons, List.length_append]
    omega

/-! ### Two ways to end -/

/-- In front of the given lexemes a reader returns a value, or fails. -/
def Runs (r : Reader α) (ls rest : List Lexeme) : Except Fault α → Prop
  | .ok a => Reads r ls rest a
  | .error cause => ∀ c : Cursor, c.Faces (ls ++ rest) → ∃ c', r c = .error (.fault cause) c'

namespace Runs

variable {r : Reader α} {f : α → Reader β} {l : Lexeme} {ls ls' : List Lexeme} {a : α}
  {x : Except Fault α} {y : α → Except Fault β} {z : Except Fault β}

theorem throw (cause : Fault) : Runs (throw (.fault cause) : Reader α) [] rest (.error cause) := by
  intro c _
  exact ⟨c, rfl⟩

/-- A first part that cannot fail. -/
theorem after (hr : Reads r ls (ls' ++ rest) a) (hf : Runs (f a) ls' rest z) :
    Runs (r >>= f) (ls ++ ls') rest z := by
  cases z with
  | ok b => exact .bind hr hf
  | error cause =>
    intro c hc
    rw [List.append_assoc] at hc
    obtain ⟨c₁, hrun, hc₁⟩ := hr c hc
    obtain ⟨c₂, hrun'⟩ := hf c₁ hc₁
    exact ⟨c₂, by rw [bind_run_ok hrun, hrun']⟩

theorem andThen (hr : Reads r [l] (ls ++ rest) a) (hf : Runs (f a) ls rest z) :
    Runs (r >>= f) (l :: ls) rest z :=
  after hr hf

theorem before (hr : Reads r [] (ls ++ rest) a) (hf : Runs (f a) ls rest z) :
    Runs (r >>= f) ls rest z :=
  after hr hf

theorem ending (hr : Reads r ls rest a) (hf : Runs (f a) [] rest z) : Runs (r >>= f) ls rest z := by
  rw [← List.append_nil ls]
  exact after hr hf

/-- A reader that goes by the lexeme ahead. -/
theorem seeing {f : Option Lexeme → Reader β} (h : Runs (f (some l)) (l :: ls) rest z) :
    Runs (Reader.peek >>= f) (l :: ls) rest z :=
  before .peek h

theorem bind (hr : Runs r ls (ls' ++ rest) x) (hf : ∀ a, Runs (f a) ls' rest (y a)) :
    Runs (r >>= f) (ls ++ ls') rest (x >>= y) := by
  cases x with
  | ok a => exact after hr (hf a)
  | error cause =>
    intro c hc
    rw [List.append_assoc] at hc
    obtain ⟨c₁, hrun⟩ := hr c hc
    exact ⟨c₁, bind_run_error hrun⟩

/-- A last part that takes nothing. -/
theorem finishing (hr : Runs r ls rest x) (hf : ∀ a, Runs (f a) [] rest (y a)) :
    Runs (r >>= f) ls rest (x >>= y) := by
  rw [← List.append_nil ls]
  exact bind hr hf

theorem returning (hr : Runs r ls rest x) (g : α → β) :
    Runs (r >>= fun a => pure (g a)) ls rest (x.map g) := by
  cases x with
  | ok a => exact Reads.returning hr g
  | error cause =>
    intro c hc
    obtain ⟨c₁, hrun⟩ := hr c hc
    exact ⟨c₁, bind_run_error hrun⟩

end Runs

theorem domainBlock_runs (name : String) {needed : Option (List String)}
    {ss : List DomainSection} {rs ls : List Lexeme} (hneeded : RequirementsWritten needed rs)
    (hsections : Items (ReadsSection domainSection) ss ls)
    (hrest : afterBlock rest.head? = true) :
    Runs domainBlock (.ident name :: .symbol .leftCurly :: (rs ++ (ls ++ [.symbol .rightCurly])))
      rest ((Domain.ofBlock ⟨name, needed, ss⟩).map fun _ => ⟨name, needed, ss⟩) := by
  -- no requirements are read where a section or the closing brace stands
  have hgoes : GoesOn domainSection ((ls ++ [Lexeme.symbol .rightCurly]) ++ rest).head? := by
    rw [List.append_assoc]
    exact goesOn_of_sections hsections (.inl rfl)
  refine .before .bound (.andThen (.ident name) (.andThen (.symbol .leftCurly)
    (.after (requirements_reads hneeded hgoes) (.ending (sections_reads hsections ?_ ?_)
      (.before (followedBy_reads hrest) ?_)))))
  · simp only [List.length_cons, List.length_append]
    omega
  · intro s rest hnext
    exact .before (followedBy_reads (afterDomainSection_of_goesOn hnext)) (announce_reads _)
  · -- the block is read, and now its sections are checked for those that are needed
    dsimp only
    cases hblock : Domain.ofBlock ⟨name, needed, ss⟩ with
    | ok domain => exact Reads.pure _
    | error cause => exact .throw cause

theorem plainBlock_reads {σ : Type} {body : Keyword → Option (Reader σ)}
    {complete : σ → Reader Unit} (make : String → List σ → β) (name : String) {ss : List σ}
    {ls : List Lexeme} (hsections : Items (ReadsSection body) ss ls)
    (hcomplete : ∀ s rest, GoesOn body rest.head? → Reads (complete s) [] rest ())
    (hrest : afterBlock rest.head? = true) :
    Reads (plainBlock body complete make)
      (.ident name :: .symbol .leftCurly :: (ls ++ [.symbol .rightCurly])) rest (make name ss) := by
  refine .before .bound (.andThen (.ident name) (.andThen (.symbol .leftCurly)
    (.ending (sections_reads hsections ?_ hcomplete)
      (.before (followedBy_reads hrest) (.pure _)))))
  simp only [List.length_cons, List.length_append]
  omega

theorem nonFluentsBlock_reads (name : String) {ss : List NonFluentsSection} {ls : List Lexeme}
    (hsections : Items (ReadsSection nonFluentsSection) ss ls)
    (hrest : afterBlock rest.head? = true) :
    Reads nonFluentsBlock (.ident name :: .symbol .leftCurly :: (ls ++ [.symbol .rightCurly]))
      rest ⟨name, ss⟩ :=
  plainBlock_reads _ name hsections (fun s _ hnext =>
    .before (followedBy_reads (afterNonFluents_of_goesOn s hnext)) (announce_reads _)) hrest

theorem instanceBlock_reads (name : String) {ss : List InstanceSection} {ls : List Lexeme}
    (hsections : Items (ReadsSection instanceSection) ss ls)
    (hrest : afterBlock rest.head? = true) :
    Reads instanceBlock (.ident name :: .symbol .leftCurly :: (ls ++ [.symbol .rightCurly]))
      rest ⟨name, ss⟩ :=
  plainBlock_reads _ name hsections (fun _ _ hnext =>
    .before (followedBy_reads (afterInstanceSection_of_goesOn hnext)) (announce_reads _)) hrest

/-! ### Documents -/

theorem afterBlock_of_written {d : Document} {ls : List Lexeme} (h : d.Written ls) :
    afterBlock ls.head? = true := by
  cases h with
  | nil => rfl
  | cons hb _ => cases hb <;> rfl

/-- The outcome for a document with a block in front that is no domain. -/
theorem map_domain?_cons {b : Block} (d : Document) (hb : Document.domain? (b :: d) = d.domain?) :
    (Document.domain? (b :: d)).map (fun _ => b :: d) =
      (d.domain?.map fun _ => d).map (b :: ·) := by
  rw [hb]
  cases d.domain? <;> rfl

theorem map_domain?_domain_cons (b : DomainBlock) (d : Document) :
    (Document.domain? (.domain b :: d)).map (fun _ => .domain b :: d) =
      ((Domain.ofBlock b).map fun _ => b) >>= fun b =>
        (d.domain?.map fun _ => d).map (Block.domain b :: ·) := by
  rw [Document.domain?]
  cases Domain.ofBlock b <;> cases Document.domain? d <;> rfl

/-- **A document is read as it is written.**  The reader fails if the domain of a block
    cannot be made, with the cause of the first such failure. -/
theorem blocks_runs {d : Document} {ls : List Lexeme} {n : Nat} (h : d.Written ls)
    (hshape : d.isWellShaped = true) (hn : ls.length < n) :
    Runs (blocks n) ls [] (d.domain?.map fun _ => d) := by
  induction h generalizing n with
  | nil =>
    obtain ⟨n, rfl⟩ := Nat.exists_eq_succ_of_ne_zero (Nat.ne_of_gt hn)
    exact .before .peek (Reads.pure [])
  | @cons b d l ls' hb hd ih =>
    obtain ⟨n, rfl⟩ := Nat.exists_eq_succ_of_ne_zero (Nat.ne_of_gt (Nat.zero_lt_of_lt hn))
    obtain ⟨hshapeb, hshaped⟩ := List.forall_mem_cons.mp (Document.isWellShaped_iff.mp hshape)
    have hafter : afterBlock (ls' ++ []).head? = true := by
      rw [List.append_nil]
      exact afterBlock_of_written hd
    -- no block is empty, so there is fuel enough for the blocks behind it
    have hlength : 0 < l.length := by cases hb <;> simp
    simp only [List.length_append] at hn
    have hrest : Runs (blocks n) ls' [] ((Document.domain? d).map fun _ => d) :=
      ih (Document.isWellShaped_iff.mpr hshaped) (by omega)
    cases hb with
    | domain name hneeded hsections =>
      have hparts := (hsections.carrying fun s hs e he =>
        hshapeb e (List.mem_flatMap.mpr ⟨s, hs, he⟩)).imp fun _ _ hs =>
          domainSection_reads hs.2 hs.1
      have hblock := domainBlock_runs name hneeded hparts hafter
      rw [map_domain?_domain_cons]
      exact .seeing (.andThen .advance (.bind hblock fun b => .returning hrest _))
    | nonFluents name hsections =>
      have hparts := hsections.imp fun _ _ => nonFluentsSection_reads
      have hblock := nonFluentsBlock_reads name hparts hafter
      rw [map_domain?_cons d rfl]
      exact .seeing (.andThen .advance (.after hblock (.returning hrest _)))
    | problem name hsections =>
      have hparts := (hsections.carrying fun s hs e he =>
        hshapeb e (List.mem_flatMap.mpr ⟨s, hs, he⟩)).imp fun _ _ hs =>
          instanceSection_reads hs.2 hs.1
      have hblock := instanceBlock_reads name hparts hafter
      rw [map_domain?_cons d rfl]
      exact .seeing (.andThen .advance (.after hblock (.returning hrest _)))

/-- The model of a document is read where the document is written. -/
theorem model_runs {d : Document} {ls : List Lexeme} (h : d.Written ls)
    (hshape : d.isWellShaped = true) : Runs model ls [] d.model := by
  have heq : d.model = ((d.domain?.map fun _ => d) >>= fun d => d.model) := by
    cases hdomain : d.domain? with
    | ok domain => rfl
    | error cause =>
      rw [Document.model, hdomain]
      rfl
  rw [heq]
  refine .before .bound (.finishing (blocks_runs h hshape ?_) ?_)
  · rw [List.append_nil]
    omega
  · intro d
    cases d.model with
    | ok m => exact Reads.pure m
    | error cause => exact .throw cause

end Rddl.Reader
