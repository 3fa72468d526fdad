/-
  Rddl/Proofs/Reader/TakesDocument.lean
  =====================================
  **What readers of documents take from the text.**

  The readers of declarations, sections and blocks, in the order of the grammar, up to
  `blocks_takes`: a document is read from lexemes that spell it, and nothing is left
  ahead.  The readers that only look ahead or announce a section take nothing.
-/
import Rddl.Proofs.Reader.Takes
import Rddl.Proofs.Syntax.Document

namespace Rddl.Reader

variable {α : Type}

/-! ### Constants and declarations -/

theorem negated_takes :
    negated.Takes fun k ls => k.Written (.symbol .minus :: ls) := by
  refine take_takes ?_
  intro l k huse
  split at huse
  · cases huse
    exact .negatedReal _
  · cases huse
    exact .negatedInteger _
  · cases huse

theorem constant_takes : constant.Takes Constant.Written := by
  intro c k c' h
  simp only [constant, bind_eq_ok] at h
  obtain ⟨negative, c₁, hminus, h⟩ := h
  rcases acceptSymbol_eq_ok hminus with ⟨rfl, hlex⟩ | ⟨rfl, rfl⟩
  · -- behind a minus sign there is a number
    obtain ⟨ls, hls, hw⟩ := negated_takes _ _ _ h
    exact ⟨_, by simp [hlex, hls], hw⟩
  · -- any other constant is one lexeme
    refine take_takes ?_ _ _ _ h
    intro l k huse
    split at huse
    · cases huse
      exact .truth true
    · cases huse
      exact .truth false
    · cases huse
      exact .positiveInfinity
    · cases huse
      exact .negativeInfinity
    · cases huse
      exact .real _
    · cases huse
      exact .integer _
    · cases huse
      exact .enumValue _
    · cases huse
      exact .ident _
    · cases huse

theorem typeDecl_takes : typeDecl.Takes TypeDecl.Written := by
  intro c d c' h
  simp only [typeDecl, bind_eq_ok, bound_eq_ok] at h
  obtain ⟨_, _, ⟨rfl, rfl⟩, name, c₁, hname, _, c₂, hcolon, objects, c₃, hobjects, h⟩ := h
  rcases accept_eq_ok hobjects with ⟨rfl, hlex⟩ | ⟨rfl, rfl⟩
  · simp only [if_true, bind_eq_ok, pure_eq_ok] at h
    obtain ⟨_, c₄, ⟨rfl, rfl⟩, _, c₅, hend, rfl, rfl⟩ := h
    refine ⟨_, ?_, .objects name⟩
    simp [ident_eq_ok hname, symbol_eq_ok hcolon, hlex, symbol_eq_ok hend]
  · simp only [Bool.false_eq_true, if_false, bind_eq_ok, pure_eq_ok] at h
    obtain ⟨_, c₄, hopen, values, c₅, hvalues, _, c₆, ⟨rfl, rfl⟩, _, c₇, hend, rfl, rfl⟩ := h
    obtain ⟨_, hls, l, rfl, hw⟩ := looseList_takes enumValue_takes .rightCurly _ _ _ _ hvalues
    refine ⟨_, ?_, .enumeration name hw⟩
    simp [ident_eq_ok hname, symbol_eq_ok hcolon, symbol_eq_ok hopen, hls, symbol_eq_ok hend,
      inBraces]

theorem range_takes : range.Takes fun type ls => ∃ l, ls = [l] ∧ RangeWritten type l := by
  refine take_takes ?_
  intro l type huse
  refine ⟨l, rfl, ?_⟩
  split at huse
  · cases huse
    exact .ident _
  · cases huse
    exact .int
  · cases huse
    exact .real
  · cases huse
    exact .bool
  · cases huse

theorem fluentKind_takes : fluentKind.Takes fun kind ls => ls = [.keyword kind.keyword] := by
  refine take_takes ?_
  intro l kind huse
  split at huse <;> cases huse <;> rfl

theorem valued_takes (word : Keyword) :
    (valued word).Takes fun k ls => ∃ l, ls = .symbol .comma :: .keyword word ::
      .symbol .assign :: l ∧ k.Written l := by
  intro c k c' h
  simp only [valued, bind_eq_ok] at h
  obtain ⟨_, c₁, hcomma, _, c₂, hword, _, c₃, hassign, hk⟩ := h
  obtain ⟨l, hl, hw⟩ := constant_takes _ _ _ hk
  refine ⟨_, ?_, l, rfl, hw⟩
  simp [symbol_eq_ok hcomma, keyword_eq_ok hword, symbol_eq_ok hassign, hl]

theorem role_takes (kind : FluentKind) :
    (role kind).Takes fun role ls => role.kind = kind ∧ role.Written ls := by
  cases kind with
  | observation => exact pure_takes ⟨rfl, .observation⟩
  -- a default value
  | nonFluent =>
    refine (valued_takes .defaultWord).map ?_
    rintro k _ ⟨l, rfl, hw⟩
    exact ⟨rfl, .nonFluent hw⟩
  | state =>
    refine (valued_takes .defaultWord).map ?_
    rintro k _ ⟨l, rfl, hw⟩
    exact ⟨rfl, .state hw⟩
  | action =>
    refine (valued_takes .defaultWord).map ?_
    rintro k _ ⟨l, rfl, hw⟩
    exact ⟨rfl, .action hw⟩
  -- a level in the place of a default value
  | intermediate =>
    refine (valued_takes .level).map ?_
    rintro k _ ⟨l, rfl, hw⟩
    exact ⟨rfl, .intermediate hw⟩

theorem pvarDeclRest_takes {name : String} {params : Option (List String)} {ps : List Lexeme}
    (hparams : ParamsWritten params ps) :
    (pvarDeclRest name params).Takes fun d ls => d.Written (.ident name :: (ps ++ ls)) := by
  intro c d c' h
  simp only [pvarDeclRest, bind_eq_ok, pure_eq_ok] at h
  obtain ⟨_, c₁, hcolon, _, c₂, hopen, kind, c₃, hkind, _, c₄, hcomma, type, c₅, htype, role, c₆,
    hrole, _, c₇, hclose, _, c₈, hend, rfl, rfl⟩ := h
  obtain ⟨_, hlex₃, rfl⟩ := fluentKind_takes _ _ _ hkind
  obtain ⟨_, hlex₅, r, rfl, hwtype⟩ := range_takes _ _ _ htype
  obtain ⟨rs, hlex₆, rfl, hwrole⟩ := role_takes _ _ _ _ hrole
  refine ⟨_, ?_, .mk name hparams hwtype hwrole⟩
  simp [symbol_eq_ok hcolon, symbol_eq_ok hopen, hlex₃, symbol_eq_ok hcomma, hlex₅, hlex₆,
    symbol_eq_ok hclose, symbol_eq_ok hend]

theorem pvarDecl_takes : pvarDecl.Takes PVarDecl.Written := by
  intro c d c' h
  simp only [pvarDecl_eq, bind_eq_ok, bound_eq_ok] at h
  obtain ⟨_, _, ⟨rfl, rfl⟩, name, c₁, hname, listed, c₂, hparen, h⟩ := h
  rcases acceptSymbol_eq_ok hparen with ⟨rfl, hlex⟩ | ⟨rfl, rfl⟩
  · simp only [if_true, bind_eq_ok] at h
    obtain ⟨types, c₃, htypes, h⟩ := h
    obtain ⟨_, hls, l, rfl, hw⟩ := looseList_takes ident_takes .rightParen _ _ _ _ htypes
    obtain ⟨rest, hrest, hwritten⟩ := pvarDeclRest_takes (.some hw) _ _ _ h
    exact ⟨_, by simp [ident_eq_ok hname, hlex, hls, hrest], hwritten⟩
  · simp only [Bool.false_eq_true, if_false] at h
    obtain ⟨rest, hrest, hwritten⟩ := pvarDeclRest_takes .none _ _ _ h
    exact ⟨_, by simp [ident_eq_ok hname, hrest], hwritten⟩

theorem cpfDecl_takes : cpfDecl.Takes CpfDecl.Written := by
  intro c d c' h
  simp only [cpfDecl, bind_eq_ok, pure_eq_ok] at h
  obtain ⟨target, c₁, htarget, _, c₂, hassign, body, c₃, hbody, _, c₄, hend, rfl, rfl⟩ := h
  obtain ⟨ts, hts, hwtarget⟩ := occurrence_takes _ _ _ htarget
  obtain ⟨ls, hls, hwbody⟩ := expression_takes _ _ _ hbody
  refine ⟨_, ?_, .mk hwtarget hwbody⟩
  simp [hts, symbol_eq_ok hassign, hls, symbol_eq_ok hend]

theorem condition_takes : condition.Takes ConditionWritten := by
  intro c e c' h
  simp only [condition, bind_eq_ok, pure_eq_ok] at h
  obtain ⟨test, c₁, htest, _, c₂, hend, rfl, rfl⟩ := h
  obtain ⟨ls, hls, hw⟩ := expression_takes _ _ _ htest
  exact ⟨_, by simp [hls, symbol_eq_ok hend], .mk hw⟩

theorem objectsDecl_takes : objectsDecl.Takes ObjectsDecl.Written := by
  intro c d c' h
  simp only [objectsDecl, bind_eq_ok, bound_eq_ok, pure_eq_ok] at h
  obtain ⟨_, _, ⟨rfl, rfl⟩, type, c₁, htype, _, c₂, hcolon, _, c₃, hopen, objects, c₄, hobjects, _,
    c₅, hclose, _, c₆, hend, rfl, rfl⟩ := h
  obtain ⟨ls, hls, hw⟩ := commaList_takes ident_takes _ _ _ _ hobjects
  refine ⟨_, ?_, .mk type hw⟩
  simp [ident_eq_ok htype, symbol_eq_ok hcolon, symbol_eq_ok hopen, hls, symbol_eq_ok hclose,
    symbol_eq_ok hend, inBraces]

theorem assignmentArgs_takes : assignmentArgs.Takes ArgsWritten := by
  intro c args c' h
  simp only [assignmentArgs, bind_eq_ok, bound_eq_ok] at h
  obtain ⟨_, _, ⟨rfl, rfl⟩, listed, c₁, hparen, h⟩ := h
  rcases acceptSymbol_eq_ok hparen with ⟨rfl, hlex⟩ | ⟨rfl, rfl⟩
  · simp only [if_true, bind_eq_ok, pure_eq_ok] at h
    obtain ⟨args, c₂, hargs, _, c₃, hclose, rfl, rfl⟩ := h
    obtain ⟨ls, hls, hw⟩ := commaList_takes label_takes _ _ _ _ hargs
    exact ⟨_, by simp [hlex, hls, symbol_eq_ok hclose], .some hw⟩
  · simp only [Bool.false_eq_true, if_false, pure_eq_ok] at h
    obtain ⟨rfl, rfl⟩ := h
    exact ⟨[], rfl, .none⟩

theorem assignment_takes : assignment.Takes Assignment.Written := by
  intro c a c' h
  simp only [assignment, bind_eq_ok] at h
  obtain ⟨negative, c₁, htilde, h⟩ := h
  rcases acceptSymbol_eq_ok htilde with ⟨rfl, hlex⟩ | ⟨rfl, rfl⟩
  · -- a negated fluent, which is false
    simp only [if_true, bind_eq_ok, pure_eq_ok] at h
    obtain ⟨name, c₂, hname, args, c₃, hargs, _, c₄, hend, rfl, rfl⟩ := h
    obtain ⟨as, has, hwargs⟩ := assignmentArgs_takes _ _ _ hargs
    refine ⟨_, ?_, .negated name hwargs⟩
    simp [hlex, ident_eq_ok hname, has, symbol_eq_ok hend]
  · simp only [Bool.false_eq_true, if_false, bind_eq_ok] at h
    obtain ⟨name, c₂, hname, args, c₃, hargs, valued, c₄, hassign, h⟩ := h
    obtain ⟨as, has, hwargs⟩ := assignmentArgs_takes _ _ _ hargs
    rcases acceptSymbol_eq_ok hassign with ⟨rfl, hlex⟩ | ⟨rfl, rfl⟩
    · -- a fluent with a value
      simp only [if_true, bind_eq_ok, pure_eq_ok] at h
      obtain ⟨value, c₅, hvalue, _, c₆, hend, rfl, rfl⟩ := h
      obtain ⟨vs, hvs, hwvalue⟩ := constant_takes _ _ _ hvalue
      refine ⟨_, ?_, .valued name hwargs hwvalue⟩
      simp [ident_eq_ok hname, has, hlex, hvs, symbol_eq_ok hend]
    · -- a fluent without a value, which is true
      simp only [Bool.false_eq_true, if_false, bind_eq_ok, pure_eq_ok] at h
      obtain ⟨_, c₅, ⟨rfl, rfl⟩, _, c₆, hend, rfl, rfl⟩ := h
      refine ⟨_, ?_, .plain name hwargs⟩
      simp [ident_eq_ok hname, has, symbol_eq_ok hend]

theorem count_takes : count.Takes fun b ls => ∃ l, ls = [l] ∧ Bound.Written b l := by
  refine take_takes ?_
  intro l b huse
  refine ⟨l, rfl, ?_⟩
  split at huse
  · cases huse
    exact .finite _
  · cases huse
    exact .unbounded
  · cases huse

/-! ### Sections -/

theorem braced_takes {item : Reader α} {W : α → List Lexeme → Prop} (hitem : item.Takes W) :
    (braced item).Takes fun as ls => ∃ l, ls = inBraces l ∧ Items W as l := by
  intro c as c' h
  simp only [braced, bind_eq_ok, bound_eq_ok, pure_eq_ok] at h
  obtain ⟨_, _, ⟨rfl, rfl⟩, _, c₁, hopen, items, c₂, hitems, _, c₃, hend, rfl, rfl⟩ := h
  obtain ⟨_, hls, l, rfl, hw⟩ := itemsToClose_takes hitem _ _ _ _ hitems
  refine ⟨_, ?_, l, rfl, hw⟩
  simp [symbol_eq_ok hopen, hls, symbol_eq_ok hend, inBraces]

theorem bracedSome_takes {item : Reader α} {W : α → List Lexeme → Prop} (hitem : item.Takes W) :
    (bracedSome item).Takes
      fun as ls => ∃ first rest l, as = first :: rest ∧ ls = inBraces l ∧ Items W as l := by
  intro c as c' h
  simp only [bracedSome, bind_eq_ok, bound_eq_ok, pure_eq_ok] at h
  obtain ⟨_, _, ⟨rfl, rfl⟩, _, c₁, hopen, first, c₂, hfirst, rest, c₃, hrest, _, c₄, hend, rfl,
    rfl⟩ := h
  obtain ⟨fs, hfs, hwfirst⟩ := hitem _ _ _ hfirst
  obtain ⟨_, hls, l, rfl, hwrest⟩ := itemsToClose_takes hitem _ _ _ _ hrest
  refine ⟨_, ?_, first, rest, fs ++ l, rfl, rfl, .cons hwfirst hwrest⟩
  simp [symbol_eq_ok hopen, hfs, hls, symbol_eq_ok hend, inBraces]

theorem domainSection_takes {word : Keyword} {r : Reader DomainSection}
    (hr : domainSection word = some r) :
    r.Takes fun s ls => s.Written (.keyword word :: ls) := by
  unfold domainSection at hr
  -- one case for each word, in the order of the definition
  split at hr
  · cases hr
    refine (braced_takes typeDecl_takes).map ?_
    rintro _ _ ⟨l, rfl, hw⟩
    exact .types hw
  · cases hr
    refine (braced_takes pvarDecl_takes).map ?_
    rintro _ _ ⟨l, rfl, hw⟩
    exact .pvariables hw
  · cases hr
    refine (braced_takes cpfDecl_takes).map ?_
    rintro _ _ ⟨l, rfl, hw⟩
    exact .cpfs hw
  · cases hr
    refine (braced_takes cpfDecl_takes).map ?_
    rintro _ _ ⟨l, rfl, hw⟩
    exact .cdfs hw
  · cases hr
    -- the reward is the only section without braces
    intro c s c' h
    simp only [bind_eq_ok, pure_eq_ok] at h
    obtain ⟨_, c₁, hassign, body, c₂, hbody, _, c₃, hend, rfl, rfl⟩ := h
    obtain ⟨ls, hls, hw⟩ := expression_takes _ _ _ hbody
    exact ⟨_, by simp [symbol_eq_ok hassign, hls, symbol_eq_ok hend], .reward hw⟩
  · cases hr
    refine (braced_takes condition_takes).map ?_
    rintro _ _ ⟨l, rfl, hw⟩
    exact .preconditions hw
  · cases hr
    refine (braced_takes condition_takes).map ?_
    rintro _ _ ⟨l, rfl, hw⟩
    exact .constraints hw
  · cases hr
    refine (braced_takes condition_takes).map ?_
    rintro _ _ ⟨l, rfl, hw⟩
    exact .invariants hw
  · cases hr

theorem assignedName_takes :
    assignedName.Takes fun name ls => ls = [.symbol .assign, .ident name, .symbol .semicolon] := by
  intro c name c' h
  simp only [assignedName, bind_eq_ok, pure_eq_ok] at h
  obtain ⟨_, c₁, hassign, name, c₂, hname, _, c₃, hend, rfl, rfl⟩ := h
  refine ⟨_, ?_, rfl⟩
  simp [symbol_eq_ok hassign, ident_eq_ok hname, symbol_eq_ok hend]

theorem horizon_takes : horizon.Takes Horizon.Written := by
  intro c limit c' h
  simp only [horizon, bind_eq_ok] at h
  obtain ⟨_, c₁, hassign, conditional, c₂, hword, h⟩ := h
  rcases accept_eq_ok hword with ⟨rfl, hlex⟩ | ⟨rfl, rfl⟩
  · simp only [if_true, bind_eq_ok, pure_eq_ok] at h
    obtain ⟨_, c₃, hopen, test, c₄, htest, _, c₅, hclose, rfl, rfl⟩ := h
    obtain ⟨ls, hls, hw⟩ := expression_takes _ _ _ htest
    refine ⟨_, ?_, .condition hw⟩
    simp [symbol_eq_ok hassign, hlex, symbol_eq_ok hopen, hls, symbol_eq_ok hclose]
  · simp only [Bool.false_eq_true, if_false, bind_eq_ok, pure_eq_ok] at h
    obtain ⟨steps, c₃, hsteps, _, c₄, hend, rfl, rfl⟩ := h
    obtain ⟨_, hls, l, rfl, hw⟩ := count_takes _ _ _ hsteps
    refine ⟨_, ?_, .steps hw⟩
    simp [symbol_eq_ok hassign, hls, symbol_eq_ok hend]

theorem discount_takes :
    discount.Takes fun x ls => ls = [.symbol .assign, .real x, .symbol .semicolon] := by
  intro c x c' h
  simp only [discount, bind_eq_ok, pure_eq_ok] at h
  obtain ⟨_, c₁, hassign, factor, c₂, hfactor, _, c₃, hend, rfl, rfl⟩ := h
  obtain ⟨l, huse, hl⟩ := take_eq_ok hfactor
  refine ⟨_, ?_, rfl⟩
  split at huse
  · cases huse
    simp [symbol_eq_ok hassign, hl, symbol_eq_ok hend]
  · cases huse

theorem nonFluentsSection_takes {word : Keyword} {r : Reader NonFluentsSection}
    (hr : nonFluentsSection word = some r) :
    r.Takes fun s ls => s.Written (.keyword word :: ls) := by
  unfold nonFluentsSection at hr
  split at hr
  · cases hr
    refine assignedName_takes.map ?_
    rintro name _ rfl
    exact .domain name
  · cases hr
    refine (braced_takes objectsDecl_takes).map ?_
    rintro _ _ ⟨l, rfl, hw⟩
    exact .objects hw
  · cases hr
    refine (bracedSome_takes assignment_takes).map ?_
    rintro _ _ ⟨first, rest, l, rfl, rfl, hw⟩
    exact .values hw
  · cases hr

theorem instanceSection_takes {word : Keyword} {r : Reader InstanceSection}
    (hr : instanceSection word = some r) :
    r.Takes fun s ls => s.Written (.keyword word :: ls) := by
  unfold instanceSection at hr
  split at hr
  · cases hr
    -- the names of the domain and of the non-fluents
    refine assignedName_takes.map ?_
    rintro name _ rfl
    exact .domain name
  · cases hr
    refine assignedName_takes.map ?_
    rintro name _ rfl
    exact .nonFluents name
  · cases hr
    -- the objects and the initial state
    refine (braced_takes objectsDecl_takes).map ?_
    rintro _ _ ⟨l, rfl, hw⟩
    exact .objects hw
  · cases hr
    refine (bracedSome_takes assignment_takes).map ?_
    rintro _ _ ⟨first, rest, l, rfl, rfl, hw⟩
    exact .initialState hw
  · cases hr
    -- the number of actions, the horizon and the discount
    intro c s c' h
    simp only [bind_eq_ok, pure_eq_ok] at h
    obtain ⟨_, c₁, hassign, count, c₂, hcount, _, c₃, hend, rfl, rfl⟩ := h
    obtain ⟨_, hls, l, rfl, hw⟩ := count_takes _ _ _ hcount
    exact ⟨_, by simp [symbol_eq_ok hassign, hls, symbol_eq_ok hend], .maxActions hw⟩
  · cases hr
    exact horizon_takes.map fun _ _ => .horizon
  · cases hr
    refine discount_takes.map ?_
    rintro factor _ rfl
    exact .discount factor
  · cases hr

/-! ### Blocks -/

theorem followedBy_eq_ok {follows : Option Lexeme → Bool} {c c' : Cursor} {u : Unit} :
    followedBy follows c = .ok u c' ↔ follows c.next? = true ∧ c = c' := by
  simp only [followedBy, bind_eq_ok, peek_eq_ok]
  constructor
  · rintro ⟨next, _, ⟨rfl, rfl⟩, h⟩
    split at h
    · next hfollows => exact ⟨hfollows, (pure_eq_ok.mp h).2⟩
    · exact absurd h unexpected_ne_ok
  · rintro ⟨hfollows, rfl⟩
    exact ⟨_, _, ⟨rfl, rfl⟩, by rw [if_pos hfollows, pure_eq_ok]; exact ⟨rfl, rfl⟩⟩

theorem lexemes_of_announce {title? : Option String} {c c' : Cursor} {u : Unit}
    (h : announce title? c = .ok u c') : c.lexemes = c'.lexemes := by
  cases title? with
  | none =>
    obtain ⟨-, rfl⟩ := pure_eq_ok.mp h
    rfl
  | some title =>
    cases h
    rfl

/-- Sections are taken together with the brace that closes their block. -/
theorem sections_takes {σ : Type} {body : Keyword → Option (Reader σ)}
    {complete : σ → Reader Unit} {W : σ → List Lexeme → Prop}
    (hbody : ∀ word r, body word = some r → r.Takes fun s ls => W s (.keyword word :: ls))
    (hcomplete : ∀ s c u c', complete s c = .ok u c' → c.lexemes = c'.lexemes) (n : Nat) :
    (sections body complete n).Takes
      fun ss ls => ∃ l, ls = l ++ [.symbol .rightCurly] ∧ Items W ss l := by
  induction n with
  | zero => exact unexpected_takes
  | succ n ih =>
    intro c ss c' h
    simp only [sections, bind_eq_ok, peek_eq_ok] at h
    obtain ⟨next, _, ⟨hseen, rfl⟩, h⟩ := h
    split at h
    · -- the closing brace
      simp only [bind_eq_ok, pure_eq_ok] at h
      obtain ⟨_, c₁, hadv, rfl, rfl⟩ := h
      exact ⟨_, by rw [lexemes_of_seen hseen hadv]; rfl, [], rfl, .nil⟩
    · -- a section, which completing it leaves as it is, and the sections behind it
      next word =>
      cases hr : body word with
      | none =>
        rw [hr] at h
        exact absurd h unexpected_ne_ok
      | some r =>
        simp only [hr, bind_eq_ok, pure_eq_ok] at h
        obtain ⟨_, c₁, hadv, first, c₂, hfirst, _, c₃, hdone, rest, c₄, hrest, rfl, rfl⟩ := h
        obtain ⟨ls, hls, hw⟩ := hbody word r hr _ _ _ hfirst
        obtain ⟨_, hrs, l, rfl, hwrest⟩ := ih _ _ _ hrest
        refine ⟨_, ?_, _, rfl, .cons hw hwrest⟩
        simp [lexemes_of_seen hseen hadv, hls, hcomplete _ _ _ _ hdone, hrs]
    · exact absurd h unexpected_ne_ok

theorem requirements_takes : requirements.Takes RequirementsWritten := by
  intro c names c' h
  simp only [requirements, bind_eq_ok, bound_eq_ok] at h
  obtain ⟨_, _, ⟨rfl, rfl⟩, given, c₁, hword, h⟩ := h
  rcases accept_eq_ok hword with ⟨rfl, hlex⟩ | ⟨rfl, rfl⟩
  · simp only [if_true, bind_eq_ok, pure_eq_ok, followedBy_eq_ok, discard_eq_ok] at h
    obtain ⟨_, c₂, ⟨assigned, hassign⟩, _, c₃, hopen, names, c₄, hnames, _, c₅, hend, _, c₆,
      ⟨rfl, rfl⟩, _, c₇, ⟨-, rfl⟩, _, c₈, hannounce, rfl, rfl⟩ := h
    obtain ⟨_, hls, l, rfl, hw⟩ := looseList_takes ident_takes .rightCurly _ _ _ _ hnames
    have hbraces : c₂.lexemes = inBraces l ++ c₈.lexemes := by
      simp [symbol_eq_ok hopen, hls, symbol_eq_ok hend, lexemes_of_announce hannounce, inBraces]
    rcases acceptSymbol_eq_ok hassign with ⟨rfl, hlex'⟩ | ⟨rfl, rfl⟩
    · exact ⟨_, by simp [hlex, hlex', hbraces], .assigned hw⟩
    · exact ⟨_, by simp [hlex, hbraces], .plain hw⟩
  · simp only [Bool.false_eq_true, if_false, bind_eq_ok, pure_eq_ok, followedBy_eq_ok] at h
    obtain ⟨_, c₂, ⟨rfl, rfl⟩, _, c₃, ⟨-, rfl⟩, _, c₄, hannounce, rfl, rfl⟩ := h
    exact ⟨[], by rw [lexemes_of_announce hannounce]; rfl, .none⟩

/-- Checking and announcing a section takes nothing. -/
theorem lexemes_of_complete {follows : Option Lexeme → Bool} {title? : Option String}
    {c c' : Cursor} {u : Unit}
    (h : (do followedBy follows; announce title? : Reader Unit) c = .ok u c') :
    c.lexemes = c'.lexemes := by
  simp only [bind_eq_ok, followedBy_eq_ok] at h
  obtain ⟨_, _, ⟨-, rfl⟩, hannounce⟩ := h
  exact lexemes_of_announce hannounce

theorem domainBlock_takes :
    domainBlock.Takes fun b ls => Block.Written (.domain b) (.keyword .domain :: ls) := by
  intro c b c' h
  simp only [domainBlock, bind_eq_ok, bound_eq_ok, followedBy_eq_ok] at h
  obtain ⟨_, _, ⟨rfl, rfl⟩, name, c₁, hname, _, c₂, hopen, needed, c₃, hneeded, parts, c₄, hparts,
    _, _, ⟨-, rfl⟩, h⟩ := h
  obtain ⟨rs, hrs, hwneeded⟩ := requirements_takes _ _ _ hneeded
  obtain ⟨_, hss, ss, rfl, hwparts⟩ := sections_takes (fun _ _ => domainSection_takes)
    (fun _ _ _ _ => lexemes_of_complete) _ _ _ _ hparts
  cases hblock : Domain.ofBlock ⟨name, needed, parts⟩ with
  | error cause =>
    rw [hblock] at h
    exact absurd h throw_ne_ok
  | ok d =>
    rw [hblock] at h
    obtain ⟨rfl, rfl⟩ := pure_eq_ok.mp h
    refine ⟨_, ?_, .domain name hwneeded hwparts⟩
    simp [ident_eq_ok hname, symbol_eq_ok hopen, hrs, hss]

theorem plainBlock_takes {σ β : Type} {body : Keyword → Option (Reader σ)}
    {complete : σ → Reader Unit} {W : σ → List Lexeme → Prop}
    (hbody : ∀ word r, body word = some r → r.Takes fun s ls => W s (.keyword word :: ls))
    (hcomplete : ∀ s c u c', complete s c = .ok u c' → c.lexemes = c'.lexemes)
    (make : String → List σ → β) {V : β → List Lexeme → Prop}
    (hmake : ∀ {name ss l}, Items W ss l →
      V (make name ss) (.ident name :: .symbol .leftCurly :: (l ++ [.symbol .rightCurly]))) :
    (plainBlock body complete make).Takes V := by
  intro c b c' h
  simp only [plainBlock, bind_eq_ok, bound_eq_ok, followedBy_eq_ok, pure_eq_ok] at h
  obtain ⟨_, _, ⟨rfl, rfl⟩, name, c₁, hname, _, c₂, hopen, parts, c₃, hparts, _, _, ⟨-, rfl⟩, rfl,
    rfl⟩ := h
  obtain ⟨_, hss, ss, rfl, hwparts⟩ := sections_takes hbody hcomplete _ _ _ _ hparts
  refine ⟨_, ?_, hmake hwparts⟩
  simp [ident_eq_ok hname, symbol_eq_ok hopen, hss]

theorem nonFluentsBlock_takes :
    nonFluentsBlock.Takes
      fun b ls => Block.Written (.nonFluents b) (.keyword .nonFluents :: ls) :=
  plainBlock_takes (fun _ _ => nonFluentsSection_takes) (fun _ _ _ _ => lexemes_of_complete) _
    (.nonFluents _)

theorem instanceBlock_takes :
    instanceBlock.Takes
      fun b ls => Block.Written (.problem b) (.keyword .instanceWord :: ls) :=
  plainBlock_takes (fun _ _ => instanceSection_takes) (fun _ _ _ _ => lexemes_of_complete) _
    (.problem _)

/-- Behind a block stand further blocks. -/
theorem blocks_cons_takes {β : Type} {n : Nat} {r : Reader β} {block : β → Block} {word : Keyword}
    (hr : r.Takes fun b ls => (block b).Written (.keyword word :: ls))
    (hrest : ∀ {c c' d}, blocks n c = .ok d c' →
      ∃ ls, c.lexemes = ls ++ c'.lexemes ∧ Document.Written d ls ∧ c'.next? = none)
    {c c' : Cursor} {d : Document} (hseen : c.next? = some (.keyword word))
    (h : (do
      advance
      let first ← r
      let rest ← blocks n
      pure (block first :: rest) : Reader Document) c = .ok d c') :
    ∃ ls, c.lexemes = ls ++ c'.lexemes ∧ d.Written ls ∧ c'.next? = none := by
  simp only [bind_eq_ok, pure_eq_ok] at h
  obtain ⟨_, c₁, hadv, first, c₂, hfirst, rest, c₃, hblocks, rfl, rfl⟩ := h
  obtain ⟨ls, hls, hw⟩ := hr _ _ _ hfirst
  obtain ⟨rs, hrs, hwrest, hend⟩ := hrest hblocks
  exact ⟨_, by simp [lexemes_of_seen hseen hadv, hls, hrs], .cons hw hwrest, hend⟩

/-- **What a document is read from spells it**, and reading it ends where no token is
    ahead. -/
theorem blocks_takes (n : Nat) {c c' : Cursor} {d : Document} (h : blocks n c = .ok d c') :
    ∃ ls, c.lexemes = ls ++ c'.lexemes ∧ d.Written ls ∧ c'.next? = none := by
  induction n generalizing c c' d with
  | zero => exact absurd h unexpected_ne_ok
  | succ n ih =>
    rw [blocks, bind_eq_ok] at h
    obtain ⟨next, _, hpeek, h⟩ := h
    obtain ⟨hseen, rfl⟩ := peek_eq_ok.mp hpeek
    split at h
    · obtain ⟨rfl, rfl⟩ := pure_eq_ok.mp h
      exact ⟨[], rfl, .nil, hseen⟩
    · exact blocks_cons_takes domainBlock_takes ih hseen h
    · exact blocks_cons_takes nonFluentsBlock_takes ih hseen h
    · exact blocks_cons_takes instanceBlock_takes ih hseen h
    · exact absurd h unexpected_ne_ok

/-- A model is read by reading a document. -/
theorem exists_blocks_of_model {c c' : Cursor} {m : Model} (h : Reader.model c = .ok m c') :
    ∃ n d, blocks n c = .ok d c' ∧ d.model = .ok m := by
  simp only [Reader.model, bind_eq_ok, bound_eq_ok] at h
  obtain ⟨_, _, ⟨rfl, rfl⟩, d, c₁, hblocks, h⟩ := h
  cases hmodel : d.model with
  | error cause =>
    rw [hmodel] at h
    exact absurd h throw_ne_ok
  | ok m' =>
    rw [hmodel] at h
    obtain ⟨rfl, rfl⟩ := pure_eq_ok.mp h
    exact ⟨_, d, hblocks, hmodel⟩

end Rddl.Reader
