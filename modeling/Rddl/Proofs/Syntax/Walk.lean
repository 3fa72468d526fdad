/-
  Rddl/Proofs/Syntax/Walk.lean
  ============================
  **What the walk through an expression meets.**

  The scope of an expression is found on a walk through its tree, in which a mark stands
  before every fluent.  The walk sees names only, so it takes anything that is named as the
  mark for one: what comes behind is then taken for a fluent, and where that cannot be done the
  walk fails.  `Expr.walk` says what is met, form by form, and `Model.scope_of_mem_nodes` that
  this is what the scope of an expression of a model is.  Where nothing but fluents is named as
  the mark, it is the fluents that stand outside the arguments of others.
-/
import Rddl.Proofs.Datum.Equality
import Rddl.Proofs.Domain.Levels
import Rddl.Proofs.Syntax.Heads

namespace Rddl

/-! ### What is met -/

/-- What two walks meet, one after the other. -/
def both (met met' : Option (List Fluent)) : Option (List Fluent) :=
  met.bind fun fluents => met'.map (fluents ++ ·)

/-- What an expression behind the mark is taken for: a fluent named as its head, with as many
    arguments as there are operands.  A literal cannot be taken so. -/
def Expr.asFluent? (e : Expr) : Option Fluent :=
  e.operands.arity.toOption.map fun arity => ⟨e.head, arity⟩

def TypedVar.isMarked (v : TypedVar) : Bool := v.type = fluentMark

mutual

/-- The fluents that the walk through an expression meets, if it comes to its end. -/
def Expr.walk : Expr → Option (List Fluent)
  | .enumValue _ | .variable _ | .truth _ | .integer _ | .real _ => some []
  | .occurrence fluent => some [fluent.fluent]
  | .group _ body | .unary _ body => body.walk
  | .call function args => if function = fluentMark then none else Expr.walkAll args
  | .binary _ left right => both left.walk right.walk
  | .quantified _ vars body => if vars.any TypedVar.isMarked then none else body.walk
  | .aggregated operator vars body =>
    if operator = fluentMark ∨ vars.any TypedVar.isMarked then none else body.walk
  | .conditional condition yes no => both condition.walk (both yes.walk no.walk)
  | .switch subject cases => both subject.walk (Case.walkAll cases)
  | .random _ parameter => parameter.walk
  | .randomPair _ first second => both first.walk second.walk
  | .dirichlet type parameter =>
    if type = fluentMark then parameter.asFluent?.map ([·]) else parameter.walk
  | .discrete type outcomes => if type = fluentMark then none else Outcome.walkAll outcomes

def Expr.walkAll : List Expr → Option (List Fluent)
  | [] => some []
  | e :: es => both e.walk (Expr.walkAll es)

def Case.walkAll : List Case → Option (List Fluent)
  | [] => some []
  | .value guard body :: cs => both (both guard.walk body.walk) (Case.walkAll cs)
  | .default body :: cs => both body.walk (Case.walkAll cs)

def Outcome.walkAll : List Outcome → Option (List Fluent)
  | [] => some []
  | .weighted label weight :: os =>
    both (if label = fluentMark then weight.asFluent?.map ([·]) else weight.walk)
      (Outcome.walkAll os)
  | .otherwise label :: os => if label = fluentMark then none else Outcome.walkAll os

end

/-! ### The walk through a tree -/

namespace Datum

/-- A walk through a tree meets the given fluents, or fails. -/
def Meets (t : Datum) (met : Option (List Fluent)) : Prop :=
  t.occurrences.toOption = met.map (List.map Fluent.name)

def MeetsAll (ds : List Datum) (met : Option (List Fluent)) : Prop :=
  (occurrencesAll ds).toOption = met.map (List.map Fluent.name)

theorem toOption_both {xs ys : Except Fault (List String)} {met met' : Option (List Fluent)}
    (hx : xs.toOption = met.map (List.map Fluent.name))
    (hy : ys.toOption = met'.map (List.map Fluent.name)) :
    (do .ok ((← xs) ++ (← ys)) : Except Fault (List String)).toOption =
      (both met met').map (List.map Fluent.name) := by
  cases xs <;> cases ys <;> cases met <;> cases met' <;>
    simp_all [Except.toOption, both, bind, Except.bind]

theorem both_nil (met : Option (List Fluent)) : both met (some []) = met := by
  cases met <;> simp [both]

namespace MeetsAll

variable {t : Datum} {ds items : List Datum} {s : String} {met met' : Option (List Fluent)}

theorem nil : MeetsAll [] (some []) := rfl

theorem word (hs : s ≠ fluentMark) (h : MeetsAll ds met) : MeetsAll (.text s :: ds) met := by
  have hs' : s ≠ "pvar_expr" := hs
  simp only [MeetsAll, occurrencesAll, hs', if_false]
  exact h

theorem expression (ht : t.Meets met) (h : MeetsAll ds met') :
    MeetsAll (.expression t :: ds) (both met met') := by
  rw [MeetsAll, occurrencesAll]
  exact toOption_both ht h

theorem tuple (hitems : MeetsAll items met) (h : MeetsAll ds met') :
    MeetsAll (.tuple items :: ds) (both met met') := by
  rw [MeetsAll, occurrencesAll]
  exact toOption_both hitems h

theorem list (hitems : MeetsAll items met) (h : MeetsAll ds met') :
    MeetsAll (.list items :: ds) (both met met') := by
  rw [MeetsAll, occurrencesAll]
  exact toOption_both hitems h

theorem single (ht : t.Meets met) : MeetsAll [.expression t] met := by
  simpa only [both_nil] using expression ht nil

theorem args (hitems : MeetsAll items met) : MeetsAll [.tuple items] met := by
  simpa only [both_nil] using tuple hitems nil

/-- The mark at the end has nothing behind it. -/
theorem mark_last : MeetsAll [.text fluentMark] none := rfl

/-- Behind the mark only what has two items can stand, the second of them with a length. -/
theorem mark_none {next : Datum}
    (h : ∀ first second, next.pair = .ok (first, second) → ∃ cause, second.arity = .error cause) :
    MeetsAll (.text fluentMark :: next :: ds) none := by
  rw [MeetsAll, occurrencesAll, if_pos (by decide)]
  cases hpair : next.pair with
  | error cause => rfl
  | ok occurrence =>
    obtain ⟨cause, hcause⟩ := h occurrence.1 occurrence.2 hpair
    simp [bind, Except.bind, fluentName, hcause, Except.toOption]

end MeetsAll

theorem Meets.headed {s : String} {ds : List Datum} {met : Option (List Fluent)}
    (hs : s ≠ fluentMark) (h : MeetsAll ds met) : (Datum.tuple [.text s, .tuple ds]).Meets met :=
  MeetsAll.word hs h.args

end Datum

open Datum

theorem Expr.meetsAll_mark (e : Expr) (ds : List Datum) :
    MeetsAll (.text fluentMark :: .expression e.tree :: ds) (e.asFluent?.map ([·])) := by
  have hpair : (Datum.expression e.tree).pair = .ok (.text e.head, e.operands) := by
    simp [Datum.pair, Datum.items, e.items_tree, bind, Except.bind]
  rw [MeetsAll, occurrencesAll, if_pos (by decide), hpair]
  cases harity : e.operands.arity with
  | error cause => simp [asFluent?, bind, Except.bind, fluentName, harity, Except.toOption]
  | ok arity =>
    simp [asFluent?, bind, Except.bind, fluentName, harity, Except.toOption,
      Datum.displayed_text, Fluent.name]

/-! ### Expressions -/

theorem ne_fluentMark_of_head? {name : String} {c : Char} (h : name.toList.head? = some c)
    (hc : c ≠ 'p') : name ≠ fluentMark := by
  rintro rfl
  exact hc (Option.some.inj h).symm

theorem Datum.pair_eq_ok {d : Datum} {first second : Datum} (h : d.pair = .ok (first, second)) :
    d.items = .ok [first, second] := by
  obtain ⟨items, hitems, h⟩ := except_bind_eq_ok.mp h
  split at h <;> cases h
  exact hitems

theorem TypedVar.meetsAll_data {vars : List TypedVar} {ds : List Datum}
    {met : Option (List Fluent)} (hvars : ∀ v ∈ vars, v.name.toList.head? = some '?')
    (h : MeetsAll ds met) :
    MeetsAll (vars.map TypedVar.datum ++ ds)
      (if vars.any TypedVar.isMarked then none else met) := by
  induction vars with
  | nil => simpa using h
  | cons v vars ih =>
    have hrest := ih fun w hw => hvars w (List.mem_cons_of_mem v hw)
    have hname := ne_fluentMark_of_head? (hvars v List.mem_cons_self) (by decide)
    -- the name of a variable starts with its mark, but its type can be any name
    have hpair : MeetsAll [.text v.name, .text v.type] (if v.isMarked then none else some []) := by
      refine .word hname ?_
      by_cases htype : v.type = fluentMark
      · rw [htype, if_pos (by simp [isMarked, htype])]
        exact .mark_last
      · rw [if_neg (by simp [isMarked, htype])]
        exact .word htype .nil
    have hall := MeetsAll.tuple (.word (s := "typed_var") (by decide) hpair.args) hrest
    rw [List.map_cons, List.cons_append, List.any_cons]
    cases hv : v.isMarked <;> simpa [hv, both, TypedVar.datum] using hall

theorem Expr.meetsAll_data {es : List Expr} (h : ∀ e ∈ es, e.tree.Meets e.walk) :
    MeetsAll (Expr.data es) (Expr.walkAll es) := by
  induction es with
  | nil => exact .nil
  | cons e es ih =>
    exact .expression (h e List.mem_cons_self) (ih fun e' he' => h e' (List.mem_cons_of_mem e he'))

theorem Case.meetsAll_data {cs : List Case}
    (h : ∀ e ∈ cs.flatMap Case.children, e.tree.Meets e.walk) :
    MeetsAll (Case.data cs) (Case.walkAll cs) := by
  induction cs with
  | nil => exact .nil
  | cons c cs ih =>
    rw [List.flatMap_cons, List.forall_mem_append] at h
    have hrest := ih h.2
    cases c with
    | value guard body =>
      have hguard := h.1 guard (by simp [Case.children])
      have hbody := h.1 body (by simp [Case.children])
      exact .tuple (.word (by decide) (.args (.expression hguard (.single hbody)))) hrest
    | default body =>
      have hbody := h.1 body (by simp [Case.children])
      exact .tuple (.word (by decide) (.single hbody)) hrest

theorem Outcome.meetsAll_data {os : List Outcome}
    (h : ∀ e ∈ os.flatMap Outcome.children, e.tree.Meets e.walk) :
    MeetsAll (Outcome.data os) (Outcome.walkAll os) := by
  induction os with
  | nil => exact .nil
  | cons o os ih =>
    rw [List.flatMap_cons, List.forall_mem_append] at h
    have hrest := ih h.2
    cases o with
    | weighted label weight =>
      refine .tuple (.word (by decide) (.args ?_)) hrest
      by_cases hmark : label = fluentMark
      · -- a label that is the mark takes the weight for a fluent
        rw [if_pos hmark, hmark]
        exact weight.meetsAll_mark []
      · rw [if_neg hmark]
        exact .word hmark (.single (h.1 weight (by simp [Outcome.children])))
    | otherwise label =>
      by_cases hmark : label = fluentMark
      · rw [walkAll, if_pos hmark]
        -- there is no weight behind such a label, and the walk fails
        have hlast : MeetsAll [.text label, .text Keyword.otherwise.spelling] none := by
          rw [hmark]
          rfl
        exact .tuple (.word (by decide) hlast.args) hrest
      · rw [walkAll, if_neg hmark]
        have hlabel : MeetsAll [.text label, .text Keyword.otherwise.spelling] (some []) :=
          .word hmark (.word (by decide) .nil)
        have hall := MeetsAll.tuple (.word (s := "lconst") (by decide) hlabel.args) hrest
        simpa [both, Outcome.data, Outcome.datum] using hall

namespace Expr

/-- The operands of a function or an aggregation, which end with an expression, cannot be
    taken for the name of a fluent and its arguments. -/
theorem arity_of_pair {d : Datum} {items : List Datum} {first second : Datum}
    (hitems : d.items = .ok items)
    (hlast : ∀ x, items.getLast? = some x → ∃ t, x = .expression t)
    (h : d.pair = .ok (first, second)) : ∃ cause, second.arity = .error cause := by
  cases hitems.symm.trans (Datum.pair_eq_ok h)
  obtain ⟨t, rfl⟩ := hlast second rfl
  exact ⟨_, rfl⟩

theorem meets_tree (e : Expr) (h : e.IsProper) : e.tree.Meets e.walk := by
  induction e using induction_on_children with
  | _ e ih =>
    have hchild : ∀ c ∈ e.children, c.tree.Meets c.walk := fun c hc => ih c hc (h.child hc)
    have hnamed := h e (.self e)
    cases e with
    -- leaves: the names of values and variables start with their marks
    | enumValue name =>
      have hname := ne_fluentMark_of_head? hnamed (by decide)
      exact MeetsAll.word (by decide) (.word hname .nil)
    | «variable» name =>
      have hname := ne_fluentMark_of_head? hnamed (by decide)
      exact MeetsAll.word (by decide) (.word hname .nil)
    | truth value => rfl
    | integer value => rfl
    | real value => rfl
    | occurrence o =>
      rw [Meets, tree, o.finds_tree (by simp)]
      rfl
    | group bracket body => exact hchild body (by simp [children])
    | call function args =>
      rw [walk]
      split
      · next hmark =>
        refine MeetsAll.word (by decide) (.args ?_)
        rw [hmark]
        -- the list of the arguments comes behind the mark, and its last item is an expression
        refine .mark_none fun first second => arity_of_pair rfl fun x hx => ?_
        rw [data_eq_map, List.getLast?_map, Option.map_eq_some_iff] at hx
        obtain ⟨e, -, rfl⟩ := hx
        exact ⟨e.tree, rfl⟩
      · next hmark =>
        have hargs : MeetsAll (Expr.data args) (Expr.walkAll args) := Expr.meetsAll_data hchild
        refine MeetsAll.word (by decide) (.args (.word hmark ?_))
        simpa only [both_nil] using MeetsAll.list hargs .nil
    -- the heads of operations are symbols and keywords
    | binary op left right =>
      have hleft := hchild left (by simp [children])
      have hright := hchild right (by simp [children])
      exact .headed op.spelling_ne_fluentMark (.expression hleft (.single hright))
    | unary op body =>
      exact .headed op.spelling_ne_fluentMark (.single (hchild body (by simp [children])))
    | quantified quantifier vars body =>
      have hbody := hchild body (by simp [children])
      exact .headed quantifier.keyword.spelling_ne_fluentMark
        (TypedVar.meetsAll_data hnamed.2 (.single hbody))
    -- the head of an aggregation is any name, and may be the mark
    | aggregated operator vars body =>
      have hbody := hchild body (by simp [children])
      have hvars := TypedVar.meetsAll_data hnamed.2.2 (.single hbody)
      by_cases hmark : operator = fluentMark
      · rw [walk, if_pos (.inl hmark), tree, hmark]
        exact MeetsAll.mark_none fun first second => arity_of_pair rfl (by simp)
      · simp only [walk, hmark, false_or]
        exact .headed hmark hvars
    -- fixed heads again
    | conditional condition yes no =>
      have hcondition := hchild condition (by simp [children])
      have hyes := hchild yes (by simp [children])
      have hno := hchild no (by simp [children])
      exact .headed (by decide) (.expression hcondition (.expression hyes (.single hno)))
    | switch subject cases =>
      have hsubject := hchild subject (by simp [children])
      have hcases : MeetsAll (Case.data cases) (Case.walkAll cases) :=
        Case.meetsAll_data fun c hc => hchild c (List.mem_cons_of_mem subject hc)
      exact .headed (by decide) (.expression hsubject hcases)
    | random distribution parameter =>
      have hparameter := hchild parameter (by simp [children])
      exact .headed (by decide) (.word distribution.keyword.spelling_ne_fluentMark
        (.args (.single hparameter)))
    | randomPair distribution first second =>
      have hfirst := hchild first (by simp [children])
      have hsecond := hchild second (by simp [children])
      exact .headed (by decide) (.word distribution.keyword.spelling_ne_fluentMark
        (.args (.expression hfirst (.single hsecond))))
    -- the type of a distribution is any name as well
    | dirichlet type parameter =>
      refine .headed (by decide) (.word (by decide) (.args ?_))
      by_cases hmark : type = fluentMark
      · rw [walk, if_pos hmark, hmark]
        exact parameter.meetsAll_mark []
      · rw [walk, if_neg hmark]
        exact .word hmark (.single (hchild parameter (by simp [children])))
    | discrete type outcomes =>
      have houtcomes := Outcome.meetsAll_data hchild
      refine .headed (by decide) (.word (by decide) (.args ?_))
      by_cases hmark : type = fluentMark
      · rw [walk, if_pos hmark, hmark]
        exact .tuple (.word (by decide) .mark_last) houtcomes
      · rw [walk, if_neg hmark]
        have htype : MeetsAll [.text "enum_type", .text type] (some []) :=
          .word (by decide) (.word hmark .nil)
        have hall := MeetsAll.tuple htype houtcomes
        simpa [both] using hall

end Expr

/-! ### The scope -/

theorem Datum.scope_of_meets_none {t : Datum} (h : t.Meets none) :
    ∃ cause, t.scope = .error cause := by
  rw [Meets] at h
  cases hmet : t.occurrences with
  | error cause => exact ⟨cause, by simp [scope, hmet, bind, Except.bind]⟩
  | ok names => simp [hmet, Except.toOption] at h

/-- The names of what is met are in the scope, each once and in order. -/
theorem Datum.scope_of_meets {t : Datum} {met : List Fluent} (h : t.Meets (some met)) :
    ∃ names, t.scope = .ok names ∧ names.Pairwise (· < ·) ∧
      ∀ name, name ∈ names ↔ ∃ f ∈ met, f.name = name := by
  have hmet : t.occurrences = .ok (met.map Fluent.name) := toOption_eq_some.mp h
  refine ⟨(sortNames (met.map Fluent.name)).eraseDups, ?_, ?_, ?_⟩
  · simp [scope, hmet, bind, Except.bind]
  · have hsorted := (pairwise_sortNames (met.map Fluent.name)).sublist (eraseDups_sublist _)
    exact hsorted.imp₂ (fun _ _ hle hne => lt_of_le_of_ne hle hne) (nodup_eraseDups _)
  · intro name
    rw [List.mem_eraseDups, sortNames, (perm_sortWith _ _).mem_iff, List.mem_map]

theorem Expr.allMentions_eq (es : List Expr) : Expr.allMentions es = es.flatMap Expr.mentions := by
  induction es with
  | nil => rfl
  | cons e es ih => rw [Expr.allMentions, ih, List.flatMap_cons]

theorem Case.allMentions_eq (cs : List Case) : Case.allMentions cs = cs.flatMap Case.mentions := by
  induction cs with
  | nil => rfl
  | cons c cs ih => rw [Case.allMentions, ih, List.flatMap_cons]

theorem Outcome.allMentions_eq (os : List Outcome) :
    Outcome.allMentions os = os.flatMap Outcome.mentions := by
  induction os with
  | nil => rfl
  | cons o os ih => rw [Outcome.allMentions, ih, List.flatMap_cons]

/-- What the members of a list mention is mentioned by the expressions in them. -/
theorem exists_child_of_mem_flatMap {α : Type} {mentions : α → List Mention}
    {children : α → List Expr} {f : Fluent}
    (hone : ∀ a, .fluent f ∈ mentions a → ∃ c ∈ children a, .fluent f ∈ c.mentions) {as : List α}
    (h : .fluent f ∈ as.flatMap mentions) :
    ∃ c ∈ as.flatMap children, .fluent f ∈ c.mentions := by
  obtain ⟨a, ha, hmem⟩ := List.mem_flatMap.mp h
  obtain ⟨c, hc, hmem⟩ := hone a hmem
  exact ⟨c, List.mem_flatMap.mpr ⟨a, ha, hc⟩, hmem⟩

theorem Case.mem_mentions {f : Fluent} {cs : List Case}
    (h : .fluent f ∈ Case.allMentions cs) :
    ∃ c ∈ cs.flatMap Case.children, .fluent f ∈ c.mentions := by
  rw [Case.allMentions_eq] at h
  refine exists_child_of_mem_flatMap (fun c hc => ?_) h
  cases c <;> simp only [Case.mentions, List.mem_append, children] at hc ⊢ <;> grind

theorem Outcome.mem_mentions {f : Fluent} {os : List Outcome}
    (h : .fluent f ∈ Outcome.allMentions os) :
    ∃ c ∈ os.flatMap Outcome.children, .fluent f ∈ c.mentions := by
  rw [Outcome.allMentions_eq] at h
  refine exists_child_of_mem_flatMap (fun o ho => ?_) h
  cases o <;> simp only [Outcome.mentions, children] at ho ⊢ <;> grind

theorem TypedVar.fluent_notMem_mentions (f : Fluent) (vars : List TypedVar) :
    .fluent f ∉ vars.flatMap TypedVar.mentions := by
  simp [TypedVar.mentions]

namespace Expr

/-- A fluent stands somewhere in an expression, be it among the arguments of another one. -/
def Has (e : Expr) (f : Fluent) : Prop := ∃ o, e.HasPart (.occurrence o) ∧ o.fluent = f

theorem Has.of_child {e c : Expr} {f : Fluent} (hc : c ∈ e.children) (h : c.Has f) : e.Has f := by
  obtain ⟨o, ho, hf⟩ := h
  exact ⟨o, .inside hc ho, hf⟩

/-- A fluent that is mentioned is the expression itself, or is mentioned directly below. -/
theorem mem_mentions_cases {e : Expr} {f : Fluent} (h : .fluent f ∈ e.mentions) :
    (∃ o, e = .occurrence o ∧ o.fluent = f) ∨ ∃ c ∈ e.children, .fluent f ∈ c.mentions := by
  cases e with
  -- a fluent is mentioned itself; all other names are not those of fluents
  | occurrence o =>
    rw [mentions, List.mem_singleton, Mention.fluent.injEq] at h
    exact .inl ⟨o, rfl, h.symm⟩
  | call function args =>
    simp only [mentions, List.mem_cons, reduceCtorEq, false_or, allMentions_eq,
      List.mem_flatMap] at h
    exact .inr h
  | switch subject cases =>
    rw [mentions, List.mem_append] at h
    rcases h with h | h
    · exact .inr ⟨subject, List.mem_cons_self, h⟩
    · obtain ⟨c, hc, hmem⟩ := Case.mem_mentions h
      exact .inr ⟨c, List.mem_cons_of_mem subject hc, hmem⟩
  | discrete type outcomes =>
    simp only [mentions, List.mem_cons, reduceCtorEq, false_or] at h
    exact .inr (Outcome.mem_mentions h)
  | quantified quantifier vars body =>
    rw [mentions, List.mem_append] at h
    exact .inr ⟨body, by simp [children], h.resolve_left (TypedVar.fluent_notMem_mentions f vars)⟩
  | aggregated operator vars body =>
    simp only [mentions, List.mem_cons, reduceCtorEq, false_or, List.mem_append] at h
    exact .inr ⟨body, by simp [children], h.resolve_left (TypedVar.fluent_notMem_mentions f vars)⟩
  | _ => simp only [mentions, children] at h ⊢; grind

/-- The scope has nothing but fluents of the expression. -/
theorem has_of_mem_scope {e : Expr} {f : Fluent} (h : f ∈ e.scope) : e.Has f := by
  have hmention : .fluent f ∈ e.mentions := by
    obtain ⟨mention, hmem, hf⟩ := List.mem_filterMap.mp h
    cases mention <;> cases hf
    exact hmem
  clear h
  induction e using induction_on_children with
  | _ e ih =>
    rcases mem_mentions_cases hmention with ⟨o, rfl, hf⟩ | ⟨c, hc, hmem⟩
    · exact ⟨o, .self _, hf⟩
    · exact .of_child hc (ih c hc hmem)

theorem walk_of_isUnmarked {e : Expr} (h : e.IsProper) (hmarks : e.isUnmarked = true) :
    e.walk = some e.scope := by
  have hwalk : e.tree.occurrences = .ok (e.scope.map Fluent.name) :=
    e.finds_tree (by simpa [isUnmarked] using hmarks)
  -- both are found on the same walk, and names tell fluents apart
  have hmeets := e.meets_tree h
  rw [Meets, hwalk] at hmeets
  obtain ⟨met, hmet, hnames⟩ := Option.map_eq_some_iff.mp hmeets.symm
  rw [hmet, Fluent.name_injective.list_map hnames]

/-- The scope is that of some fluents exactly if the walk meets these. -/
theorem scope_eq_iff_walk {e : Expr} (h : e.IsProper) (P : Fluent → Prop) :
    (∃ names, e.tree.scope = .ok names ∧ ∀ name, name ∈ names ↔ ∃ f, P f ∧ f.name = name) ↔
      ∃ met, e.walk = some met ∧ ∀ f, f ∈ met ↔ P f := by
  have hmeets := e.meets_tree h
  cases hwalk : e.walk with
  | none =>
    obtain ⟨cause, hcause⟩ := Datum.scope_of_meets_none (hwalk ▸ hmeets)
    simp [hcause]
  | some met =>
    obtain ⟨names, hnames, -, hmem⟩ := Datum.scope_of_meets (hwalk ▸ hmeets)
    constructor
    · rintro ⟨names', hnames', hP⟩
      cases hnames.symm.trans hnames'
      refine ⟨met, rfl, fun f => ?_⟩
      have hf := (hmem f.name).symm.trans (hP f.name)
      simpa only [Fluent.name_injective.eq_iff, exists_eq_right] using hf
    · rintro ⟨met', hmet', hP⟩
      cases hmet'
      exact ⟨names, hnames, fun name => by simp only [hmem, hP]⟩

end Expr

/-- **The scope of an expression has the fluents that the walk meets.**  Every expression of
    a model that was read from a text is written in the text.  For an expression that is
    written there the scope fails where the walk does, and otherwise has the names of what the
    walk meets, each once and in order.  Where nothing but fluents is named as the mark, that is
    the fluents outside the arguments of others, and nothing else.  So the scope has exactly the
    fluents that stand in the expression, at any depth, if the walk meets all of them and
    nothing else. -/
theorem Model.scope_of_mem_nodes {line : Nat} {text : String} {m : Model}
    (h : (Reading.ofText line text).verdict = .model m) :
    (∀ d ∈ m.expressionData, ∀ t ∈ d.nodes, ∃ (e : Expr) (ls : List Lexeme),
      e.tree = t ∧ e.Written ls ∧ ls ⊆ (Scan.ofText line text).lexemes) ∧
    ∀ (e : Expr) (ls : List Lexeme), e.Written ls → ls ⊆ (Scan.ofText line text).lexemes →
      (e.walk = none → ∃ cause, e.tree.scope = .error cause) ∧
      (∀ met, e.walk = some met → ∃ names, e.tree.scope = .ok names ∧
        names.Pairwise (· < ·) ∧ ∀ name, name ∈ names ↔ ∃ f ∈ met, f.name = name) ∧
      (e.isUnmarked = true → e.walk = some e.scope ∧ ∀ f ∈ e.scope, e.Has f) ∧
      ((∃ names, e.tree.scope = .ok names ∧
          ∀ name, name ∈ names ↔ ∃ f, e.Has f ∧ f.name = name) ↔
        ∃ met, e.walk = some met ∧ ∀ f, f ∈ met ↔ e.Has f) := by
  refine ⟨Model.exists_written_of_mem_nodes h, fun e ls hwritten hsub => ?_⟩
  -- what is written with lexemes of the text has names that are spelled as such
  have hproper : e.IsProper := Expr.isProper_of_written hwritten fun l hl =>
    Scan.areSpelled_lexemes line text l (hsub hl)
  have hmeets := e.meets_tree hproper
  refine ⟨?_, ?_, ?_, Expr.scope_eq_iff_walk hproper e.Has⟩
  · intro hnone
    exact Datum.scope_of_meets_none (hnone ▸ hmeets)
  · intro met hmet
    exact Datum.scope_of_meets (hmet ▸ hmeets)
  · intro hmarks
    exact ⟨Expr.walk_of_isUnmarked hproper hmarks, fun f => Expr.has_of_mem_scope⟩

def appliedReward : Expr :=
  .binary .plus (.occurrence ⟨"p", some [.fluent "q"]⟩) (.dirichlet fluentMark (.enumValue "@x"))

def appliedText : String := "domain d \x7b
  pvariables \x7b \x7d;
  cpfs \x7b \x7d;
  reward = p(q) + Dirichlet(pvar_expr, @x);
\x7d
non-fluents n \x7b \x7d
instance i \x7b \x7d"

/-- The argument `q` is not in the scope of the reward, but an enumeration value is. -/
theorem Model.scope_of_appliedText :
    ∃ m names, (Reading.ofText 1 appliedText).verdict = .model m ∧
      m.domain.reward = appliedReward.datum ∧ appliedReward.tree.scope = .ok names ∧
      (∀ name, name ∈ names ↔ name = "p/1" ∨ name = "penum_expr/2") ∧
      appliedReward.Has ⟨"q", 0⟩ := by
  have hread : ((Reading.ofText 1 appliedText).verdict.model?.map fun m => m.domain.reward) =
      some appliedReward.datum := by
    rw [appliedText, Reading.ofText_eq_ofScan 1 rfl]
    decide +kernel
  obtain ⟨m, hmodel, hreward⟩ := Option.map_eq_some_iff.mp hread
  have hverdict := Verdict.eq_model_of_model? hmodel
  have hwritten : appliedReward.Written [.ident "p", .symbol .leftParen, .ident "q",
      .symbol .rightParen, .symbol .plus, .keyword .dirichlet, .symbol .leftParen,
      .ident fluentMark, .symbol .comma, .enumValue "@x", .symbol .rightParen] :=
    .binary .plus (.occurrence (.applied "p" (.plain (.fluent "q") .nil)))
      (.dirichlet fluentMark (.enumValue "@x"))
  -- the reward is written with lexemes of the text
  have hsub : ∀ l ∈ [Lexeme.ident "p", .symbol .leftParen, .ident "q", .symbol .rightParen,
      .symbol .plus, .keyword .dirichlet, .symbol .leftParen, .ident fluentMark, .symbol .comma,
      .enumValue "@x", .symbol .rightParen], l ∈ (Scan.ofText 1 appliedText).lexemes := by
    decide +kernel
  obtain ⟨names, hnames, -, hmem⟩ := ((scope_of_mem_nodes hverdict).2 appliedReward _ hwritten
    hsub).2.1 [⟨"p", 1⟩, ⟨"penum_expr", 2⟩] (by decide)
  refine ⟨m, names, hverdict, hreward, hnames, fun name => ?_, ?_⟩
  · have hp : Fluent.name ⟨"p", 1⟩ = "p/1" := by decide +kernel
    have hx : Fluent.name ⟨"penum_expr", 2⟩ = "penum_expr/2" := by decide +kernel
    simp [hmem, hp, hx, eq_comm]
  · refine ⟨⟨"q", none⟩, ?_, rfl⟩
    refine .inside List.mem_cons_self (.child ?_)
    simp [Expr.children, Occurrence.children, Term.expr?]

end Rddl
