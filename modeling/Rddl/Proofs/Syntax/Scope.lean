/-
  Rddl/Proofs/Syntax/Scope.lean
  =============================
  **The scope of an expression.**

  The scope of an expression is found on a walk through its tree, in which a mark stands
  before every fluent.  So it has the fluents in the expression, those inside the arguments
  of other fluents apart, unless the mark is also the name of a type, a function, an
  aggregation or a label in the expression (`Expr.exists_scopeOf`).
-/
import Rddl.Proofs.Domain.Declared

namespace Rddl

/-! ### Names in an expression -/

def Occurrence.fluent (o : Occurrence) : Fluent := ⟨o.name, (o.args.getD []).length⟩

/-- A name in an expression: that of a fluent, or of anything else. -/
inductive Mention where
  | fluent (f : Fluent)
  | other (name : String)
deriving DecidableEq

def Mention.fluent? : Mention → Option Fluent
  | .fluent f => some f
  | .other _ => none

def TypedVar.mentions (v : TypedVar) : List Mention := [.other v.name, .other v.type]

mutual

/-- The names in an expression, but not those inside the arguments of fluents. -/
def Expr.mentions : Expr → List Mention
  | .enumValue name => [.other name]
  | .variable name => [.other name]
  | .occurrence fluent => [.fluent fluent.fluent]
  | .group _ body => body.mentions
  | .call function args => .other function :: Expr.allMentions args
  | .binary _ left right => left.mentions ++ right.mentions
  | .unary _ body => body.mentions
  | .truth _ | .integer _ | .real _ => []
  | .quantified _ vars body => vars.flatMap TypedVar.mentions ++ body.mentions
  | .aggregated operator vars body =>
    .other operator :: (vars.flatMap TypedVar.mentions ++ body.mentions)
  | .conditional condition yes no => condition.mentions ++ (yes.mentions ++ no.mentions)
  | .switch subject cases => subject.mentions ++ Case.allMentions cases
  | .random _ parameter => parameter.mentions
  | .randomPair _ first second => first.mentions ++ second.mentions
  | .dirichlet type parameter => .other type :: parameter.mentions
  | .discrete type outcomes => .other type :: Outcome.allMentions outcomes

def Expr.allMentions : List Expr → List Mention
  | [] => []
  | e :: es => e.mentions ++ Expr.allMentions es

def Case.mentions : Case → List Mention
  | .value guard body => guard.mentions ++ body.mentions
  | .default body => body.mentions

def Case.allMentions : List Case → List Mention
  | [] => []
  | c :: cs => c.mentions ++ Case.allMentions cs

def Outcome.mentions : Outcome → List Mention
  | .weighted label weight => .other label :: weight.mentions
  | .otherwise label => [.other label]

def Outcome.allMentions : List Outcome → List Mention
  | [] => []
  | o :: os => o.mentions ++ Outcome.allMentions os

end

/-- The fluents in an expression, but not those inside the arguments of others. -/
def Expr.scope (e : Expr) : List Fluent := e.mentions.filterMap Mention.fluent?

/-- The mark that stands before a fluent in a tree. -/
def fluentMark : String := "pvar_expr"

/-- Nothing but fluents is named as the mark. -/
def Expr.isUnmarked (e : Expr) : Bool := .other fluentMark ∉ e.mentions

/-! ### The walk -/

namespace Datum

/-- The fluents of a walk through a tree, if nothing but fluents is named as the mark. -/
def Finds (t : Datum) (ms : List Mention) : Prop :=
  .other fluentMark ∉ ms → t.occurrences = .ok ((ms.filterMap Mention.fluent?).map Fluent.name)

def FindsAll (ds : List Datum) (ms : List Mention) : Prop :=
  .other fluentMark ∉ ms → occurrencesAll ds = .ok ((ms.filterMap Mention.fluent?).map Fluent.name)

namespace FindsAll

variable {t : Datum} {ds items : List Datum} {s : String} {ms ms' : List Mention}

theorem nil : FindsAll [] [] := fun _ => rfl

/-- A fixed word of the tree. -/
theorem word (hs : s ≠ fluentMark) (h : FindsAll ds ms) : FindsAll (.text s :: ds) ms := by
  intro hms
  have hs' : s ≠ "pvar_expr" := hs
  simp only [occurrencesAll, hs', if_false]
  exact h hms

theorem name (h : FindsAll ds ms) : FindsAll (.text s :: ds) (.other s :: ms) := by
  intro hms
  rw [List.mem_cons, not_or, Mention.other.injEq] at hms
  have hword : FindsAll (.text s :: ds) ms := word (Ne.symm hms.1) h
  exact hword hms.2

theorem expression (ht : t.Finds ms) (h : FindsAll ds ms') :
    FindsAll (.expression t :: ds) (ms ++ ms') := by
  intro hms
  rw [List.mem_append, not_or] at hms
  simp [occurrencesAll, ht hms.1, h hms.2, bind, Except.bind]

theorem tuple (hitems : FindsAll items ms) (h : FindsAll ds ms') :
    FindsAll (.tuple items :: ds) (ms ++ ms') := by
  intro hms
  rw [List.mem_append, not_or] at hms
  simp [occurrencesAll, hitems hms.1, h hms.2, bind, Except.bind]

theorem list (hitems : FindsAll items ms) : FindsAll [.list items] ms := by
  intro hms
  simp [occurrencesAll, hitems hms, bind, Except.bind]

theorem single (ht : t.Finds ms) : FindsAll [.expression t] ms := by
  simpa using expression ht nil

theorem args (hitems : FindsAll items ms) : FindsAll [.tuple items] ms := by
  simpa using tuple hitems nil

end FindsAll

theorem Finds.tuple {ds : List Datum} {ms : List Mention} (h : FindsAll ds ms) :
    (Datum.tuple ds).Finds ms := h

/-- The tree of an operation with its operands. -/
theorem Finds.headed {s : String} {ds : List Datum} {ms : List Mention} (hs : s ≠ fluentMark)
    (h : FindsAll ds ms) : (Datum.tuple [.text s, .tuple ds]).Finds ms :=
  .tuple (.word hs h.args)

end Datum

open Datum

theorem Occurrence.finds_tree (o : Occurrence) : o.tree.Finds [.fluent o.fluent] := by
  intro _
  cases h : o.args <;>
    simp [tree, occurrences, occurrencesAll, Datum.pair, Datum.items, Datum.fluentName, Datum.arity,
      Datum.isAbsent, Datum.length, Datum.displayed_text, h, Fluent.name, fluent, Term.length_data,
      Mention.fluent?, bind, Except.bind]

theorem TypedVar.findsAll_data {ds : List Datum} {ms : List Mention} (vars : List TypedVar)
    (h : FindsAll ds ms) :
    FindsAll (vars.map TypedVar.datum ++ ds) (vars.flatMap TypedVar.mentions ++ ms) := by
  induction vars with
  | nil => exact h
  | cons v vars ih =>
    have hv : FindsAll [.text "typed_var", .tuple [.text v.name, .text v.type]] v.mentions :=
      .word (by decide) (.args (.name (.name .nil)))
    rw [List.flatMap_cons, List.append_assoc]
    exact .tuple hv ih

theorem BinaryOp.spelling_ne_fluentMark (op : BinaryOp) : op.symbol.spelling ≠ fluentMark := by
  cases op <;> decide

theorem UnaryOp.spelling_ne_fluentMark (op : UnaryOp) : op.symbol.spelling ≠ fluentMark := by
  cases op <;> decide

theorem Keyword.spelling_ne_fluentMark (k : Keyword) : k.spelling ≠ fluentMark := by
  cases k <;> decide

mutual

theorem Expr.finds_tree : ∀ e : Expr, e.tree.Finds e.mentions
  | .enumValue name => .tuple (.word (by decide) (.name .nil))
  | .variable name => .tuple (.word (by decide) (.name .nil))
  | .occurrence fluent => fluent.finds_tree
  | .group _ body => fun h => body.finds_tree h
  -- a word that cannot be the mark is passed over; a name from the text is taken as it is
  | .call function args =>
    .headed (by decide) (.name (.list (Expr.findsAll_data args)))
  | .binary op left right =>
    .headed op.spelling_ne_fluentMark (.expression left.finds_tree (.single right.finds_tree))
  | .unary op body => .headed op.spelling_ne_fluentMark (.single body.finds_tree)
  | .truth _ => fun _ => by simp [Expr.tree, occurrences, occurrencesAll, Expr.mentions]
  | .integer _ => fun _ => by simp [Expr.tree, occurrences, occurrencesAll, Expr.mentions]
  | .real _ => fun _ => by simp [Expr.tree, occurrences, occurrencesAll, Expr.mentions]
  | .quantified quantifier vars body =>
    .headed quantifier.keyword.spelling_ne_fluentMark
      (TypedVar.findsAll_data vars (.single body.finds_tree))
  | .aggregated operator vars body =>
    .tuple (.name (.args (TypedVar.findsAll_data vars (.single body.finds_tree))))
  | .conditional condition yes no =>
    .headed (by decide) (.expression condition.finds_tree
      (.expression yes.finds_tree (.single no.finds_tree)))
  | .switch subject cases =>
    .headed (by decide) (.expression subject.finds_tree (Case.findsAll_data cases))
  | .random distribution parameter =>
    .headed (by decide) (.word distribution.keyword.spelling_ne_fluentMark
      (.args (.single parameter.finds_tree)))
  | .randomPair distribution first second =>
    .headed (by decide) (.word distribution.keyword.spelling_ne_fluentMark
      (.args (.expression first.finds_tree (.single second.finds_tree))))
  | .dirichlet type parameter =>
    .headed (by decide) (.word (by decide) (.args (.name (.single parameter.finds_tree))))
  | .discrete type outcomes =>
    .headed (by decide) (.word (by decide) (.args (.tuple (.word (by decide) (.name .nil))
      (Outcome.findsAll_data outcomes))))

theorem Expr.findsAll_data : ∀ es : List Expr, FindsAll (Expr.data es) (Expr.allMentions es)
  | [] => .nil
  | e :: es => .expression e.finds_tree (Expr.findsAll_data es)

theorem Case.findsAll_data : ∀ cs : List Case, FindsAll (Case.data cs) (Case.allMentions cs)
  | [] => .nil
  | .value guard body :: cs =>
    .tuple (.word (by decide) (.args (.expression guard.finds_tree (.single body.finds_tree))))
      (Case.findsAll_data cs)
  | .default body :: cs =>
    .tuple (.word (by decide) (.single body.finds_tree)) (Case.findsAll_data cs)

theorem Outcome.findsAll_data : ∀ os : List Outcome,
    FindsAll (Outcome.data os) (Outcome.allMentions os)
  | [] => .nil
  | .weighted label weight :: os =>
    .tuple (.word (by decide) (.args (.name (.single weight.finds_tree))))
      (Outcome.findsAll_data os)
  | .otherwise label :: os =>
    .tuple (.word (by decide) (.args (.name (.word (by decide) .nil)))) (Outcome.findsAll_data os)

end

/-- **The scope of an expression has the fluents in it.** -/
theorem Expr.exists_scopeOf {e : Expr} (h : e.isUnmarked = true) :
    ∃ names, e.datum.scopeOf = .ok names ∧ ∀ name, name ∈ names ↔ ∃ f ∈ e.scope, f.name = name := by
  have hwalk : e.tree.occurrences = .ok (e.scope.map Fluent.name) :=
    e.finds_tree (by simpa [isUnmarked] using h)
  refine ⟨(sortNames (e.scope.map Fluent.name)).eraseDups, ?_, ?_⟩
  · simp [Datum.scopeOf, Expr.datum, Datum.tree, Datum.scope, hwalk, bind, Except.bind]
  · intro name
    rw [List.mem_eraseDups, sortNames, (perm_sortWith _ _).mem_iff, List.mem_map]

end Rddl
