/-
  Rddl/Proofs/Syntax/Heads.lean
  =============================
  **Heads and operands.**

  The tree of an expression is a pair of a head and its operands, and brackets do not matter
  (`Expr.items_tree`).  The head decides the form of the expression, and with the operands
  its kind and its arguments (`kind_tree`, `arguments_tree`): for an expression that is written
  in a text there is always a kind, and there are always arguments.
-/
import Rddl.Proofs.Syntax.Parts
import Rddl.Proofs.Syntax.Scope

namespace Rddl

/-! ### Heads that stand for a form -/

namespace Form

def heads : List String :=
  ["number", "boolean", "pvar_expr", "penum_expr", "param_expr", "randomvar", "+", "-", "*", "/",
    "^", "&", "|", "~", "=>", "<=>", ">=", "<=", "<", ">", "==", "~=", "func", "sum", "prod", "avg",
    "forall", "exists", "max", "min", "if", "switch"]

theorem ofHead_of_notMem {head : String} (h : head ∉ heads) : ofHead head = .unknown := by
  simp only [heads, List.mem_cons, List.not_mem_nil, or_false, not_or] at h
  simp [ofHead, h]

/-- What is to be shown of a head that stands for a form is to be shown of each of them. -/
theorem of_ofHead {head : String} {form : Form} (P : String → Bool) (h : ofHead head = form)
    (hform : form ≠ .unknown) (hall : ∀ s ∈ heads, ofHead s = form → P s = true) :
    P head = true := by
  by_cases hmem : head ∈ heads
  · exact hall head hmem h
  · exact absurd (h.symm.trans (ofHead_of_notMem hmem)) hform

theorem eq_fluentMark_of_ofHead {head : String} (h : ofHead head = .pvariable) :
    head = fluentMark := by
  have heq := of_ofHead (fun s => s == fluentMark) h (by decide) (by decide)
  exact eq_of_beq heq

/-- A name stands neither for a universal quantifier nor for a comparison. -/
theorem ofHead_ne_of_isIdentifier {head : String} (h : isIdentifier head = true) :
    ofHead head ≠ .aggregation "forall" ∧ ofHead head ≠ .relational := by
  constructor
  · intro hform
    have hno := of_ofHead (fun s => !isIdentifier s) hform (by decide) (by decide)
    simp [h] at hno
  · intro hform
    have hno := of_ofHead (fun s => !isIdentifier s) hform (by decide) (by decide)
    simp [h] at hno

end Form

/-! ### Forms of operators -/

def BinaryOp.form : BinaryOp → Form
  | .equivalent | .implies | .or | .and | .ampersand => .boolean
  | .equal | .unequal | .greater | .greaterEq | .less | .lessEq => .relational
  | .plus | .minus | .times | .divide => .arithmetic

def UnaryOp.form : UnaryOp → Form
  | .not => .boolean
  | .minus | .plus => .arithmetic

theorem BinaryOp.ofHead_spelling (op : BinaryOp) : Form.ofHead op.symbol.spelling = op.form := by
  cases op <;> decide

theorem UnaryOp.ofHead_spelling (op : UnaryOp) : Form.ofHead op.symbol.spelling = op.form := by
  cases op <;> decide

theorem Quantifier.ofHead_spelling (q : Quantifier) :
    Form.ofHead q.keyword.spelling = .aggregation q.keyword.spelling := by
  cases q <;> decide

/-! ### Heads and operands -/

namespace Expr

/-- The head of the tree of an expression, brackets apart. -/
def head : Expr → String
  | .enumValue _ => "penum_expr"
  | .variable _ => "param_expr"
  | .occurrence _ => fluentMark
  | .group _ body => body.head
  | .call .. => "func"
  | .binary op _ _ => op.symbol.spelling
  | .unary op _ => op.symbol.spelling
  | .truth _ => "boolean"
  | .integer _ | .real _ => "number"
  | .quantified quantifier _ _ => quantifier.keyword.spelling
  | .aggregated operator _ _ => operator
  | .conditional .. => "if"
  | .switch .. => "switch"
  | .random .. | .randomPair .. | .dirichlet .. | .discrete .. => "randomvar"

/-- What stands behind the head of the tree of an expression, brackets apart. -/
def operands : Expr → Datum
  | .group _ body => body.operands
  | e =>
    match e.tree with
    | .tuple [_, second] => second
    | _ => .absent

theorem items_tree : ∀ e : Expr, e.tree.items = .ok [.text e.head, e.operands]
  | .group _ body => body.items_tree
  | .occurrence _ => rfl
  | .enumValue _ | .variable _ | .call .. | .binary .. | .unary .. | .truth _ | .integer _
  | .real _ | .quantified .. | .aggregated .. | .conditional .. | .switch .. | .random ..
  | .randomPair .. | .dirichlet .. | .discrete .. => by
    simp [tree, operands, Datum.items, head]

theorem item_zero (e : Expr) : e.tree.item 0 = .ok (.text e.head) := by
  simp [Datum.item, e.items_tree, bind, Except.bind]

theorem item_one (e : Expr) : e.tree.item 1 = .ok e.operands := by
  simp [Datum.item, e.items_tree, bind, Except.bind]

/-! ### Kinds and arguments -/

def form (e : Expr) : Form := Form.ofHead e.head

theorem form_tree (e : Expr) : e.tree.form = .ok e.form := by
  simp [Datum.form, item_zero, bind, Except.bind, form]

section Forms

variable (e e' : Expr) (es : List Expr) (name : String) (vars : List TypedVar)

@[simp] theorem form_enumValue : (enumValue name).form = .enumValue := rfl
@[simp] theorem form_variable : («variable» name).form = .variable := rfl
@[simp] theorem form_occurrence (o : Occurrence) : (occurrence o).form = .pvariable := rfl
@[simp] theorem form_group (b : Bracket) : (group b e).form = e.form := rfl
@[simp] theorem form_call : (call name es).form = .function := rfl
@[simp] theorem form_truth (b : Bool) : (truth b).form = .constant := rfl
@[simp] theorem form_integer (n : Nat) : (integer n).form = .constant := rfl
@[simp] theorem form_real (x : Binary64) : (real x).form = .constant := rfl
@[simp] theorem form_conditional (c : Expr) : (conditional c e e').form = .control "if" := rfl
@[simp] theorem form_switch (cs : List Case) : (switch e cs).form = .control "switch" := rfl
@[simp] theorem form_random (d : UnaryDistribution) : (random d e).form = .random := rfl
@[simp] theorem form_randomPair (d : BinaryDistribution) :
    (randomPair d e e').form = .random := rfl
@[simp] theorem form_dirichlet : (dirichlet name e).form = .random := rfl
@[simp] theorem form_discrete (os : List Outcome) : (discrete name os).form = .random := rfl

@[simp] theorem form_binary (op : BinaryOp) : (binary op e e').form = op.form :=
  op.ofHead_spelling

@[simp] theorem form_unary (op : UnaryOp) : (unary op e).form = op.form := op.ofHead_spelling

@[simp] theorem form_quantified (q : Quantifier) :
    (quantified q vars e).form = .aggregation q.keyword.spelling := q.ofHead_spelling

end Forms

/-- An operand of an expression that has it. -/
def operand (e : Expr) (i : Nat) : Datum := (e.operands.item i).toOption.getD .absent

def arguments (e : Expr) : Datum :=
  match e.form with
  | .random | .function => e.operand 1
  | .unknown => .list []
  | _ => e.operands

def detail (e : Expr) : Datum :=
  match e.form with
  | .constant => .text e.operands.classTag
  | .pvariable | .enumValue | .random | .function => e.operand 0
  | .variable => e.operands
  | .arithmetic | .boolean | .relational => .text e.head
  | .aggregation operator => .text operator
  | .control construct => .text construct
  | .unknown => .text "UNKOWN"

theorem item_operands_of_items {e : Expr} {items : List Datum} {i : Nat}
    (h : e.operands.items = .ok items) (hi : i < items.length) :
    e.operands.item i = .ok (e.operand i) := by
  have hitem : e.operands.item i = .ok items[i] := by
    simp [Datum.item, h, hi, bind, Except.bind]
  rw [operand, hitem]
  rfl

/-- An expression whose kind is told by its first operand has one, and one whose arguments are
    its second operand has two. -/
theorem exists_items_operands {e : Expr} (h : e.IsProper)
    (hform : e.form ∈ [.pvariable, .enumValue, .random, .function]) :
    ∃ items, e.operands.items = .ok items ∧ 0 < items.length ∧
      (e.form ∈ [.random, .function] → 1 < items.length) := by
  induction e using induction_on_children with
  | _ e ih =>
    cases e with
    | group bracket body => exact ih body List.mem_cons_self (h.child List.mem_cons_self) hform
    -- the operand of an enumeration value is its name, whose items are its characters
    | enumValue name =>
      have hname : name.toList.head? = some '@' := h _ (.self _)
      obtain ⟨run, hrun⟩ := List.head?_eq_some_iff.mp hname
      exact ⟨_, rfl, by simp [hrun], by simp⟩
    | occurrence o => exact ⟨_, rfl, by simp, by simp⟩
    | call function args => exact ⟨_, rfl, by simp, by simp⟩
    | random distribution parameter => exact ⟨_, rfl, by simp, by simp⟩
    | randomPair distribution first second => exact ⟨_, rfl, by simp, by simp⟩
    | dirichlet type parameter => exact ⟨_, rfl, by simp, by simp⟩
    | discrete type outcomes => exact ⟨_, rfl, by simp, by simp⟩
    -- an aggregation can have any head, but always has a variable and a body
    | aggregated operator vars body =>
      have hvars : vars ≠ [] := (h _ (.self _)).2.1
      have hlength := List.length_pos_iff.mpr hvars
      exact ⟨_, rfl, by simp, fun _ => by simpa using hlength⟩
    | binary op left right => cases op <;> simp [BinaryOp.form] at hform
    | unary op body => cases op <;> simp [UnaryOp.form] at hform
    | _ => simp at hform

theorem arguments_tree {e : Expr} (h : e.IsProper) : e.tree.arguments = .ok e.arguments := by
  have hitem : e.form ∈ [.random, .function] → e.operands.item 1 = .ok (e.operand 1) := by
    intro hform
    have hnamed := List.mem_cons_of_mem .pvariable (List.mem_cons_of_mem .enumValue hform)
    obtain ⟨items, hitems, -, hlength⟩ := exists_items_operands h hnamed
    exact item_operands_of_items hitems (hlength hform)
  cases hform : e.form <;>
    simp_all [Datum.arguments, form_tree, item_one, arguments, bind, Except.bind]

theorem kind_tree {e : Expr} (h : e.IsProper) : e.tree.kind = .ok ⟨e.form, e.detail⟩ := by
  have hitem : e.form ∈ [.pvariable, .enumValue, .random, .function] →
      e.operands.item 0 = .ok (e.operand 0) := by
    intro hform
    obtain ⟨items, hitems, hlength, -⟩ := exists_items_operands h hform
    exact item_operands_of_items hitems hlength
  cases hform : e.form <;>
    simp_all [Datum.kind, form_tree, item_zero, item_one, detail, bind, Except.bind]

end Expr

end Rddl
