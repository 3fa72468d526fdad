/-
  Rddl/Proofs/Domain/Comparisons.lean
  ===================================
  **What bound a condition puts on an action.**

  A condition bounds an action if it compares it with an expression, itself or below a
  universal quantifier.  `Expr.boundBelow?` and `Expr.boundAbove?` say so form by form, and
  brackets do not matter (`Expr.bare`).  Building reads the same off the untyped tree:
  wherever the walk through a condition ends and at most one variable is bound, it finds
  the bounds that are told here (`Domain.bound?_eq`).  Where several variables are bound it
  takes the second of them for the body, and fails (`Domain.bound?_of_isWide`).
-/
import Rddl.Proofs.Domain.Preconditions
import Rddl.Proofs.Syntax.Walk

namespace Rddl

namespace Expr

/-! ### Brackets -/

def bare : Expr → Expr
  | .group _ body => body.bare
  | e => e

theorem bare_ne_group (e : Expr) (bracket : Bracket) (body : Expr) :
    e.bare ≠ .group bracket body := by
  fun_induction bare e with
  | case1 _ _ ih => exact ih
  | case2 e hgroup => exact hgroup bracket body

@[simp] theorem head_bare (e : Expr) : e.bare.head = e.head := by
  fun_induction bare e with
  | case1 _ _ ih => exact ih
  | case2 => rfl

@[simp] theorem operands_bare (e : Expr) : e.bare.operands = e.operands := by
  fun_induction bare e with
  | case1 _ _ ih => exact ih
  | case2 => rfl

@[simp] theorem walk_bare (e : Expr) : e.bare.walk = e.walk := by
  fun_induction bare e with
  | case1 _ _ ih => exact ih
  | case2 => rfl

/-- Whether an expression is a universal quantifier over several variables, brackets apart. -/
def isWide : Expr → Bool
  | .group _ body => body.isWide
  | .quantified .universal vars _ => decide (2 ≤ vars.length)
  | _ => false

@[simp] theorem isWide_bare (e : Expr) : e.bare.isWide = e.isWide := by
  fun_induction bare e with
  | case1 _ _ ih => exact ih
  | case2 => rfl

theorem IsProper.bare {e : Expr} (h : e.IsProper) : e.bare.IsProper := by
  fun_induction Expr.bare e with
  | case1 _ _ ih => exact ih (h.child List.mem_cons_self)
  | case2 => exact h

@[simp] theorem form_bare (e : Expr) : e.bare.form = e.form := by rw [form, form, head_bare]

theorem walk_ne_none_of_both {met met' : Option (List Fluent)} (h : both met met' ≠ none) :
    met ≠ none ∧ met' ≠ none := by
  cases met <;> cases met' <;> simp_all [both]

/-- A comparison is a binary operation. -/
theorem exists_bare_of_relational {e : Expr} (h : e.IsProper) (hform : e.form = .relational) :
    ∃ op left right, e.bare = .binary op left right := by
  rw [← form_bare] at hform
  have hnamed := h.bare _ (.self _)
  cases hbare : e.bare with
  | group bracket body => exact absurd hbare (e.bare_ne_group bracket body)
  | binary op left right => exact ⟨op, left, right, rfl⟩
  -- an aggregation has an identifier for its head, which no operator and no keyword is
  | aggregated operator vars body =>
    rw [hbare] at hform hnamed
    exact absurd hform (Form.ofHead_ne_of_isIdentifier hnamed.1).2
  | unary op body => rw [hbare] at hform; cases op <;> simp [UnaryOp.form] at hform
  | _ => simp [hbare] at hform

theorem exists_bare_of_universal {e : Expr} (h : e.IsProper)
    (hform : e.form = .aggregation "forall") :
    ∃ vars body, e.bare = .quantified .universal vars body := by
  rw [← form_bare] at hform
  have hnamed := h.bare _ (.self _)
  cases hbare : e.bare with
  | group bracket body => exact absurd hbare (e.bare_ne_group bracket body)
  | quantified quantifier vars body =>
    cases quantifier with
    | universal => exact ⟨vars, body, rfl⟩
    | existential => rw [hbare] at hform; exact absurd hform (by simp; decide)
  | aggregated operator vars body =>
    rw [hbare] at hform hnamed
    exact absurd hform (Form.ofHead_ne_of_isIdentifier hnamed.1).1
  | binary op left right => rw [hbare] at hform; cases op <;> simp [BinaryOp.form] at hform
  | unary op body => rw [hbare] at hform; cases op <;> simp [UnaryOp.form] at hform
  | _ => simp [hbare] at hform

/-- An expression of the form of a fluent is one, unless an aggregation is named as the mark. -/
theorem exists_bare_of_pvariable {e : Expr} (hform : e.form = .pvariable) (hwalk : e.walk ≠ none) :
    ∃ o, e.bare = .occurrence o := by
  rw [← form_bare] at hform
  rw [← walk_bare] at hwalk
  cases hbare : e.bare with
  | group bracket body => exact absurd hbare (e.bare_ne_group bracket body)
  | occurrence o => exact ⟨o, rfl⟩
  | aggregated operator vars body =>
    rw [hbare] at hform hwalk
    have hmark : operator = fluentMark := Form.eq_fluentMark_of_ofHead hform
    rw [walk, if_pos (.inl hmark)] at hwalk
    exact absurd rfl hwalk
  | binary op left right => rw [hbare] at hform; cases op <;> simp [BinaryOp.form] at hform
  | unary op body => rw [hbare] at hform; cases op <;> simp [UnaryOp.form] at hform
  | _ => simp [hbare] at hform

/-! ### Bounds, form by form -/

/-- Whether an expression is an occurrence of the fluent with a name, brackets apart. -/
def isOccurrenceOf (name : String) (e : Expr) : Bool :=
  match e.bare with
  | .occurrence o => o.fluent.name == name
  | _ => false

/-- The comparison that an expression is, brackets apart. -/
def relation? (e : Expr) : Option Expr :=
  match e.bare with
  | .binary op left right => if op.form = .relational then some (.binary op left right) else none
  | _ => none

/-- The comparison that a condition consists of: it is one itself, or it is a universal
    quantifier that has one for its body. -/
def core? (e : Expr) : Option Expr :=
  match e.bare with
  | .quantified .universal _ body => body.relation?
  | _ => e.relation?

/-- What a comparison bounds a fluent from below by. -/
def lowerForm? (name : String) : Expr → Option Expr
  | .binary .lessEq bound side | .binary .less bound side
  | .binary .greaterEq side bound | .binary .greater side bound =>
    if side.isOccurrenceOf name then some bound else none
  | _ => none

def upperForm? (name : String) : Expr → Option Expr
  | .binary .lessEq side bound | .binary .less side bound
  | .binary .greaterEq bound side | .binary .greater bound side =>
    if side.isOccurrenceOf name then some bound else none
  | _ => none

def boundBelow? (name : String) (e : Expr) : Option Expr := e.core?.bind (lowerForm? name)

/-- The upper bound that a condition puts on a fluent; one that puts a lower bound on it puts
    no other. -/
def boundAbove? (name : String) (e : Expr) : Option Expr :=
  e.core?.bind fun c => if (c.lowerForm? name).isSome then none else c.upperForm? name

def actionBound? (name : String) (e : Expr) : Option ActionBound :=
  ((e.boundBelow? name).map fun b => .lower b.datum).or
    ((e.boundAbove? name).map fun b => .upper b.datum)

theorem relation?_eq_some {e c : Expr} (h : e.relation? = some c) :
    ∃ op left right, e.bare = .binary op left right ∧ op.form = .relational ∧
      c = .binary op left right := by
  rw [relation?] at h
  split at h
  · next op left right hbare =>
    split at h
    · next hop => exact ⟨op, left, right, hbare, hop, (Option.some.inj h).symm⟩
    · cases h
  · cases h

theorem relation?_eq_none {e : Expr} (hform : e.form ≠ .relational) : e.relation? = none := by
  rw [Option.eq_none_iff_forall_ne_some]
  intro c hc
  obtain ⟨op, left, right, hbare, hop, -⟩ := relation?_eq_some hc
  rw [← form_bare, hbare, form_binary] at hform
  exact hform hop

theorem exists_relation? {e : Expr} (h : e.IsProper) (hform : e.form = .relational) :
    ∃ c, e.relation? = some c := by
  obtain ⟨op, left, right, hbare⟩ := exists_bare_of_relational h hform
  rw [← form_bare, hbare, form_binary] at hform
  exact ⟨.binary op left right, by simp [relation?, hbare, hform]⟩

theorem core?_of_form {e : Expr} (hform : e.form ≠ .aggregation "forall") :
    e.core? = e.relation? := by
  rw [core?]
  split
  · next vars body hbare =>
    rw [← form_bare, hbare, form_quantified] at hform
    exact absurd rfl hform
  · rfl

end Expr

/-! ### The sides of a comparison -/

namespace Domain

/-- A side of a comparison is known by its name if it is an occurrence of a fluent. -/
theorem isFluent_eq {e : Expr} (h : e.IsProper) (hwalk : e.walk ≠ none) (name : String) :
    isFluent name e.datum = .ok (e.isOccurrenceOf name) := by
  have hkind := Expr.kind_tree h
  by_cases hform : e.form = .pvariable
  · -- an aggregation may pass for a fluent, but then the walk through it would have failed
    obtain ⟨o, hbare⟩ := Expr.exists_bare_of_pvariable hform hwalk
    have hname : e.operands.occurrenceName = .ok o.fluent.name := by
      rw [← Expr.operands_bare, hbare]
      cases hargs : o.args <;>
        simp [Expr.operands, Expr.tree, Occurrence.tree, hargs, Datum.occurrenceName, Datum.item,
          Datum.items, Datum.fluentName, Datum.arity, Datum.isAbsent, Datum.length,
          Datum.displayed_text, Occurrence.fluent, Fluent.name, Term.length_data, bind, Except.bind]
    have harguments : e.tree.arguments = .ok e.operands := by
      rw [Expr.arguments_tree h, Expr.arguments, hform]
    have hown : e.tree.name = .ok o.fluent.name := by
      simp [Datum.name, Datum.isPVariable, hkind, hform, harguments, hname, bind, Except.bind]
    simp [isFluent, Expr.datum, Datum.tree, Datum.isPVariable, hkind, hform, hown,
      Expr.isOccurrenceOf, hbare, bind, Except.bind]
  · have hother : e.isOccurrenceOf name = false := by
      rw [Expr.isOccurrenceOf]
      split
      · next o hbare =>
        rw [← Expr.form_bare, hbare, Expr.form_occurrence] at hform
        exact absurd rfl hform
      · rfl
    simp [isFluent, Expr.datum, Datum.tree, Datum.isPVariable, hkind, hform, hother, bind,
      Except.bind]

/-- A side that is the fluent in question leads to the other side. -/
theorem otherSide?_eq {sides : List Datum} {name : String} {place : Nat} {side other : Expr}
    (hside : sides[place]? = some side.datum) (hother : sides[1 - place]? = some other.datum)
    (h : side.IsProper ∧ side.walk ≠ none) :
    otherSide? name (.tuple sides) place =
      .ok ((if side.isOccurrenceOf name then some other else none).map Expr.datum) := by
  have hpresent : other.datum.isAbsent = false := rfl
  cases hname : side.isOccurrenceOf name <;>
    simp [otherSide?, Datum.item, Datum.items, hside, hother, hpresent, isFluent_eq h.1 h.2, hname,
      bind, Except.bind]

/-- The bounds in a comparison, with brackets around it or not. -/
theorem bounds_eq {e c : Expr} (h : e.IsProper) (hwalk : e.walk ≠ none) (hc : e.relation? = some c)
    (name : String) :
    lowerBound? name e.tree = .ok ((c.lowerForm? name).map Expr.datum) ∧
      upperBound? name e.tree = .ok ((c.upperForm? name).map Expr.datum) := by
  obtain ⟨op, left, right, hbare, hop, rfl⟩ := Expr.relation?_eq_some hc
  have hform : e.form = .relational := by rw [← Expr.form_bare, hbare, Expr.form_binary, hop]
  have hparts : (Expr.binary op left right).IsProper := hbare ▸ h.bare
  have hwalks : (Expr.binary op left right).walk ≠ none := by rwa [← hbare, Expr.walk_bare]
  have hmet := Expr.walk_ne_none_of_both hwalks
  have hleft : left.IsProper ∧ left.walk ≠ none :=
    ⟨hparts.child (by simp [Expr.children]), hmet.1⟩
  have hright : right.IsProper ∧ right.walk ≠ none :=
    ⟨hparts.child (by simp [Expr.children]), hmet.2⟩
  have hkind : e.tree.kind = .ok ⟨.relational, .text op.symbol.spelling⟩ := by
    rw [Expr.kind_tree h, Expr.detail, hform, ← Expr.head_bare, hbare, Expr.head]
  have harguments : e.tree.arguments = .ok (.tuple [left.datum, right.datum]) := by
    rw [Expr.arguments_tree h, Expr.arguments, hform, ← Expr.operands_bare, hbare]
    rfl
  have hfirst : otherSide? name (.tuple [left.datum, right.datum]) 0 = _ :=
    otherSide?_eq rfl rfl hleft
  have hsecond : otherSide? name (.tuple [left.datum, right.datum]) 1 = _ :=
    otherSide?_eq rfl rfl hright
  rw [lowerBound?, upperBound?, hkind, harguments]
  -- the spelling of the operator tells which side is looked at
  cases op <;> simp [BinaryOp.form] at hop
  all_goals
    simp [Expr.lowerForm?, Expr.upperForm?, hfirst, hsecond, BinaryOp.symbol, Symbol.spelling,
      Datum.isText, bind, Except.bind]

/-! ### The comparison in a condition -/

/-- The fault of asking a variable for the kind of an expression. -/
def notAnExpression : Fault := .missingField "tuple" "etype"

section Universal

variable {e body : Expr} {v w : TypedVar} {vars : List TypedVar}

/-- The arguments of a universal quantifier are its variables and then its body. -/
theorem arguments_of_universal (h : e.IsProper)
    (hbare : e.bare = .quantified .universal vars body) :
    e.tree.kind = .ok ⟨.aggregation "forall", .text "forall"⟩ ∧
      e.tree.arguments = .ok (.tuple (vars.map TypedVar.datum ++ [body.datum])) := by
  have hform : e.form = .aggregation "forall" := by
    rw [← Expr.form_bare, hbare, Expr.form_quantified]
    rfl
  constructor
  · rw [Expr.kind_tree h, Expr.detail, hform]
  · rw [Expr.arguments_tree h, Expr.arguments, hform, ← Expr.operands_bare, hbare]
    rfl

/-- With one variable the body stands in the second place. -/
theorem comparison?_of_narrow (h : e.IsProper) (hbare : e.bare = .quantified .universal [v] body) :
    comparison? e.datum = .ok (if body.form = .relational then some body.tree else none) := by
  obtain ⟨hkind, harguments⟩ := arguments_of_universal h hbare
  have hbody : body.IsProper := (hbare ▸ h.bare).child List.mem_cons_self
  simp [comparison?, Expr.datum, Datum.tree, hkind, harguments, Datum.item, Datum.items,
    Expr.kind_tree hbody, bind, Except.bind]

/-- With several variables the second one stands there. -/
theorem comparison?_of_wide (h : e.IsProper)
    (hbare : e.bare = .quantified .universal (v :: w :: vars) body) :
    comparison? e.datum = .error notAnExpression := by
  obtain ⟨hkind, harguments⟩ := arguments_of_universal h hbare
  simp [comparison?, Expr.datum, Datum.tree, hkind, harguments, Datum.item, Datum.items,
    TypedVar.datum, Datum.lacks, Datum.className, notAnExpression, bind, Except.bind]

end Universal

theorem comparison?_of_form {e : Expr} (h : e.IsProper) (hform : e.form ≠ .aggregation "forall") :
    comparison? e.datum = .ok (if e.form = .relational then some e.tree else none) := by
  by_cases hrelational : e.form = .relational <;>
    simp [comparison?, Expr.datum, Datum.tree, Expr.kind_tree h, Expr.arguments_tree h,
      hrelational, bind, Except.bind]

/-- What is found in a condition is the comparison that it consists of, with its brackets. -/
theorem exists_comparison {e : Expr} (h : e.IsProper) (hwalk : e.walk ≠ none)
    (hwide : e.isWide = false) :
    ∃ r : Expr, r.IsProper ∧ r.walk ≠ none ∧ e.core? = r.relation? ∧
      comparison? e.datum = .ok (if r.form = .relational then some r.tree else none) := by
  by_cases hform : e.form = .aggregation "forall"
  · -- a universal quantifier: the comparison is looked for in its body
    obtain ⟨vars, body, hbare⟩ := Expr.exists_bare_of_universal h hform
    have hparts : (Expr.quantified .universal vars body).IsProper := hbare ▸ h.bare
    have hbody : body.walk ≠ none := by
      intro hnone
      rw [← Expr.walk_bare, hbare, Expr.walk, hnone, ite_self] at hwalk
      exact hwalk rfl
    obtain ⟨v, rest, rfl⟩ := List.exists_cons_of_ne_nil (hparts _ (.self _)).1
    cases rest with
    | nil =>
      exact ⟨body, hparts.child List.mem_cons_self, hbody, by rw [Expr.core?, hbare],
        comparison?_of_narrow h hbare⟩
    | cons w rest =>
      -- several variables are excluded
      rw [← Expr.isWide_bare, hbare] at hwide
      simp [Expr.isWide] at hwide
  · exact ⟨e, h, hwalk, Expr.core?_of_form hform, comparison?_of_form h hform⟩

/-- **The bound that is found in a condition is the one that it puts on the action.** -/
theorem bound?_eq {e : Expr} (h : e.IsProper) (hwalk : e.walk ≠ none) (hwide : e.isWide = false)
    (name : String) : bound? name e.datum = .ok (e.actionBound? name) := by
  obtain ⟨r, hr, hrWalk, hcore, hcomparison⟩ := exists_comparison h hwalk hwide
  rw [bound?, hcomparison, Expr.actionBound?, Expr.boundBelow?, Expr.boundAbove?, hcore]
  by_cases hform : r.form = .relational
  · obtain ⟨c, hc⟩ := Expr.exists_relation? hr hform
    obtain ⟨hlower, hupper⟩ := bounds_eq hr hrWalk hc name
    cases hbelow : c.lowerForm? name <;>
      simp [hform, hc, hlower, hupper, hbelow, Function.comp_def, bind, Except.bind]
  · simp [hform, Expr.relation?_eq_none hform, bind, Except.bind]

theorem bound?_of_isWide {e : Expr} (h : e.IsProper) (hwide : e.isWide = true) (name : String) :
    bound? name e.datum = .error notAnExpression := by
  rw [← Expr.isWide_bare] at hwide
  cases hbare : e.bare with
  | quantified quantifier vars body =>
    rw [hbare] at hwide
    cases quantifier with
    | existential => cases hwide
    | universal =>
      rcases vars with _ | ⟨v, _ | ⟨w, vars⟩⟩
      · simp [Expr.isWide] at hwide
      · simp [Expr.isWide] at hwide
      · rw [bound?, comparison?_of_wide h hbare]
        rfl
  | group bracket body => exact absurd hbare (e.bare_ne_group bracket body)
  | _ => simp [hbare, Expr.isWide] at hwide

end Domain

end Rddl
