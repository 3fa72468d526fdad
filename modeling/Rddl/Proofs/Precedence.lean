/-
  Rddl/Proofs/Precedence.lean
  ===========================
  **How operators bind in the expressions of a model.**

  The expressions of a model are untyped trees.  `Datum.IsBound` says of one tree that its
  operator stands where it binds by itself: an operation on its left binds no less tightly,
  one on its right more tightly, none stands directly below a unary operator, and a left
  operand does not end with something that takes up the rest.  The main result is
  `Model.isBound_of_mem_nodes`: all expressions of a model that was read are bound so,
  since the trees that are read are well-shaped.
-/
import Rddl.Proofs.Domain.Declared
import Rddl.Proofs.Grammar.Expr
import Rddl.Proofs.Reader.Yields

namespace Rddl

/-! ### Expressions inside data -/

mutual

/-- The trees of all expressions that stand in a datum. -/
@[simp] def Datum.nodes : Datum → List Datum
  | .expression tree => tree :: tree.nodes
  | .tuple items | .list items => Datum.nodesOf items
  | .cpf target body => target.nodes ++ body.nodes
  | .pvariable name kind range params default level =>
    name.nodes ++ kind.nodes ++ range.nodes ++ params.nodes ++ default.nodes ++ level.nodes
  | .text _ | .integer _ | .real _ | .truth _ | .absent => []

@[simp] def Datum.nodesOf : List Datum → List Datum
  | [] => []
  | d :: ds => d.nodes ++ Datum.nodesOf ds

end

namespace Datum

theorem nodesOf_eq_flatMap (ds : List Datum) : nodesOf ds = ds.flatMap nodes := by
  induction ds with
  | nil => rfl
  | cons d ds ih => rw [nodesOf, ih, List.flatMap_cons]

/-! ### Forms of trees -/

def operation (op : BinaryOp) (left right : Datum) : Datum :=
  .tuple [.text op.symbol.spelling, .tuple [.expression left, .expression right]]

def unaryOperation (op : UnaryOp) (body : Datum) : Datum :=
  .tuple [.text op.symbol.spelling, .tuple [.expression body]]

/-- A quantified expression or an aggregation, with its variables and its body. -/
def binder (head : String) (vars : List TypedVar) (body : Datum) : Datum :=
  .tuple [.text head, .tuple (vars.map TypedVar.datum ++ [.expression body])]

def choice (condition yes no : Datum) : Datum :=
  .tuple [.text "if", .tuple [.expression condition, .expression yes, .expression no]]

/-- A tree whose last part extends as far to the right as it can. -/
def TakesRest (d : Datum) : Prop :=
  (∃ head vars body, vars ≠ [] ∧ d = binder head vars body) ∨ ∃ c y n, d = choice c y n

/-- The trees that a tree ends with, outside all brackets. -/
inductive EndsWith : Datum → Datum → Prop
  | self (d : Datum) : EndsWith d d
  | operation (op : BinaryOp) (left : Datum) {right d} : EndsWith right d →
      EndsWith (operation op left right) d
  | unary (op : UnaryOp) {body d} : EndsWith body d → EndsWith (unaryOperation op body) d
  | binder (head : String) {vars : List TypedVar} {body d} : vars ≠ [] → EndsWith body d →
      EndsWith (binder head vars body) d
  | choice (condition yes : Datum) {no d} : EndsWith no d → EndsWith (choice condition yes no) d

/-- The operator of a tree binds as the tree has it. -/
structure IsBound (tree : Datum) : Prop where
  left : ∀ op left right op' left' right', tree = operation op left right →
    left = operation op' left' right' → op.level ≤ op'.level
  right : ∀ op left right op' left' right', tree = operation op left right →
    right = operation op' left' right' → op.level < op'.level
  unary : ∀ op body op' left right, tree = unaryOperation op body →
    body ≠ operation op' left right
  edge : ∀ op left right d, tree = operation op left right → left.EndsWith d → ¬ d.TakesRest

def AllBound (d : Datum) : Prop := ∀ tree ∈ d.nodes, tree.IsBound

theorem allBound_expression {d : Datum} :
    (expression d).AllBound ↔ d.IsBound ∧ d.AllBound := by
  simp [AllBound, nodes]

@[simp] theorem allBound_tuple {ds : List Datum} :
    (tuple ds).AllBound ↔ ∀ d ∈ ds, d.AllBound := by
  simp only [AllBound, nodes, nodesOf_eq_flatMap, List.mem_flatMap]
  grind

@[simp] theorem allBound_list {ds : List Datum} : (list ds).AllBound ↔ ∀ d ∈ ds, d.AllBound := by
  simp only [AllBound, nodes, nodesOf_eq_flatMap, List.mem_flatMap]
  grind

@[simp] theorem allBound_cpf {target body : Datum} :
    (cpf target body).AllBound ↔ target.AllBound ∧ body.AllBound := by
  simp only [AllBound, nodes, List.mem_append]
  grind

@[simp] theorem allBound_text (s : String) : (text s).AllBound := by simp [AllBound, nodes]

@[simp] theorem allBound_integer (n : Int) : (integer n).AllBound := by simp [AllBound, nodes]

@[simp] theorem allBound_real (x : Binary64) : (real x).AllBound := by simp [AllBound, nodes]

@[simp] theorem allBound_truth (b : Bool) : (truth b).AllBound := by simp [AllBound, nodes]

@[simp] theorem allBound_absent : absent.AllBound := by simp [AllBound, nodes]

end Datum

/-! ### Forms of the trees of expressions -/

def BinaryOp.ofSpelling? (spelling : String) : Option BinaryOp :=
  [.equivalent, .implies, .or, .and, .ampersand, .equal, .unequal, .greater, .greaterEq, .less,
    .lessEq, .plus, .minus, .times, .divide].find? fun op => op.symbol.spelling == spelling

theorem BinaryOp.ofSpelling?_spelling (op : BinaryOp) :
    ofSpelling? op.symbol.spelling = some op := by
  cases op <;> decide

theorem BinaryOp.eq_of_spelling {op op' : BinaryOp}
    (h : op.symbol.spelling = op'.symbol.spelling) : op = op' := by
  rw [← Option.some.injEq, ← ofSpelling?_spelling op, ← ofSpelling?_spelling op', h]

theorem BinaryOp.spelling_ne_switch (op : BinaryOp) : op.symbol.spelling ≠ "switch" := by
  cases op <;> decide

theorem UnaryOp.spelling_ne_switch (op : UnaryOp) : op.symbol.spelling ≠ "switch" := by
  cases op <;> decide

theorem Quantifier.spelling_ne_unary (q : Quantifier) (op : UnaryOp) :
    q.keyword.spelling ≠ op.symbol.spelling := by
  cases q <;> cases op <;> decide

namespace Expr

open Datum

/-- The variables of a binder are no expressions. -/
theorem vars_append_ne (vars : List TypedVar) (body l r : Datum) :
    vars.map TypedVar.datum ++ [expression body] ≠ [expression l, expression r] := by
  cases vars with
  | nil => simp
  | cons v vars => simp [TypedVar.datum]

theorem tree_eq_operation {e : Expr} {op : BinaryOp} {l r : Datum} (h : e.tree = operation op l r) :
    ∃ left right, e = .binary op left right ∧ left.tree = l ∧ right.tree = r := by
  cases e with
  | binary op' left right =>
    simp only [tree, operation, tuple.injEq, List.cons.injEq, text.injEq, expression.injEq,
      and_true] at h
    obtain ⟨hop, hleft, hright⟩ := h
    exact ⟨left, right, by rw [BinaryOp.eq_of_spelling hop], hleft, hright⟩
  | quantified q vars body => simp [tree, operation, vars_append_ne] at h
  | aggregated operator vars body => simp [tree, operation, vars_append_ne] at h
  | switch on cases => simp [tree, operation, (BinaryOp.spelling_ne_switch op).symm] at h
  | occurrence o => simp [tree, operation, Occurrence.tree] at h
  | _ => simp [tree, operation] at h

/-- A tree of the form of a unary operation is one, or a binder without variables. -/
theorem tree_eq_unaryOperation {e : Expr} {op : UnaryOp} {b : Datum}
    (h : e.tree = unaryOperation op b) :
    (∃ op' body, e = .unary op' body ∧ body.tree = b) ∨
      ∃ operator body, e = .aggregated operator [] body := by
  cases e with
  | unary op' body =>
    simp only [tree, unaryOperation, tuple.injEq, List.cons.injEq, expression.injEq,
      and_true] at h
    exact .inl ⟨op', body, rfl, h.2⟩
  | aggregated operator vars body =>
    cases vars with
    | nil => exact .inr ⟨operator, body, rfl⟩
    | cons v vars => simp [tree, unaryOperation, TypedVar.datum] at h
  | quantified q vars body => simp [tree, unaryOperation, Quantifier.spelling_ne_unary] at h
  | switch on cases => simp [tree, unaryOperation, (UnaryOp.spelling_ne_switch op).symm] at h
  | occurrence o => simp [tree, unaryOperation, Occurrence.tree] at h
  | _ => simp [tree, unaryOperation] at h

theorem isOpen_of_tree_binder {e : Expr} {head : String} {vars : List TypedVar} {b : Datum}
    (hvars : vars ≠ []) (h : e.tree = binder head vars b) : e.isOpen = true := by
  obtain ⟨v, vars, rfl⟩ := List.exists_cons_of_ne_nil hvars
  cases e with
  | quantified q vars' body => rfl
  | aggregated operator vars' body => rfl
  | occurrence o => simp [tree, binder, Occurrence.tree, TypedVar.datum] at h
  | _ => simp [tree, binder, TypedVar.datum] at h

theorem isOpen_of_tree_choice {e : Expr} {c y n : Datum} (h : e.tree = choice c y n) :
    e.isOpen = true := by
  cases e with
  | conditional condition yes no => rfl
  | quantified q vars' body => rfl
  | aggregated operator vars' body => rfl
  | occurrence o => simp [tree, choice, Occurrence.tree] at h
  | _ => simp [tree, choice] at h

theorem isOpen_of_takesRest {e : Expr} (h : e.tree.TakesRest) : e.isOpen = true := by
  rcases h with ⟨head, vars, body, hvars, h⟩ | ⟨c, y, n, h⟩
  · exact isOpen_of_tree_binder hvars h
  · exact isOpen_of_tree_choice h

/-- A tree that ends with something that takes up the rest is open. -/
theorem isOpen_of_endsWith {e : Expr} {d : Datum} (h : e.tree.EndsWith d) (hd : d.TakesRest) :
    e.isOpen = true := by
  generalize htree : e.tree = tree at h
  induction h generalizing e with
  | self d => exact isOpen_of_takesRest (htree ▸ hd)
  | operation op left _ ih =>
    obtain ⟨l, r, rfl, -, hright⟩ := tree_eq_operation htree
    have hopen : r.isOpen = true := ih hd hright
    exact hopen
  | unary op _ ih =>
    rcases tree_eq_unaryOperation htree with ⟨op', body, rfl, hbody⟩ | ⟨operator, body, rfl⟩
    · have hopen : body.isOpen = true := ih hd hbody
      exact hopen
    · rfl
  | binder head hvars _ _ => exact isOpen_of_tree_binder hvars htree
  | choice condition yes _ _ => exact isOpen_of_tree_choice htree

end Expr

namespace Expr

open Datum

theorem isBound_tree {e : Expr} {ls : List Lexeme} (hwritten : e.Written ls)
    (hshape : e.isWellShaped = true) : e.tree.IsBound := by
  refine ⟨?_, ?_, ?_, ?_⟩
  · -- an operation on the left binds at least as tightly
    intro op left right op' left' right' htree hleft
    obtain ⟨l, r, rfl, rfl, -⟩ := tree_eq_operation htree
    obtain ⟨-, -, -, hlow, -⟩ := isWellShaped_binary.mp hshape
    obtain ⟨l', r', rfl, -, -⟩ := tree_eq_operation hleft
    exact hlow op'.level rfl
  · -- one on the right binds more tightly
    intro op left right op' left' right' htree hright
    obtain ⟨l, r, rfl, -, rfl⟩ := tree_eq_operation htree
    obtain ⟨-, -, -, -, hhigh⟩ := isWellShaped_binary.mp hshape
    obtain ⟨l', r', rfl, -, -⟩ := tree_eq_operation hright
    exact hhigh op'.level rfl
  · -- a unary operator has no operation for its operand
    intro op body op' left right htree hbody
    rcases tree_eq_unaryOperation htree with ⟨op'', e', rfl, rfl⟩ | ⟨operator, e', rfl⟩
    · obtain ⟨l, r, rfl, -, -⟩ := tree_eq_operation hbody
      simp [isWellShaped, level?] at hshape
    · cases hwritten with
      -- an aggregation without variables would have the same tree, but none can be written
      | aggregated _ hvars _ => cases hvars
  · -- a left operand does not end with a tree that would have gone on
    intro op left right d htree hends hrest
    obtain ⟨l, r, rfl, rfl, -⟩ := tree_eq_operation htree
    obtain ⟨-, -, hclosed, -, -⟩ := isWellShaped_binary.mp hshape
    cases hclosed.symm.trans (isOpen_of_endsWith hends hrest)

end Expr

/-! ### All expressions of a tree -/

/-- A fluent with its arguments is no operation. -/
theorem Occurrence.isBound_tree (o : Occurrence) : o.tree.IsBound := by
  constructor <;> intros <;> simp_all [Occurrence.tree, Datum.operation, Datum.unaryOperation]

mutual

theorem Term.allBound_datum : ∀ t : Term, t.datum.AllBound
  | .variable name => by simp [Term.datum]
  | .enumValue name => by simp [Term.datum]
  | .fluent name => by
    rw [Term.datum, Datum.allBound_expression]
    exact ⟨Occurrence.isBound_tree ⟨name, none⟩, by simp⟩
  | .applied name args => by
    rw [Term.datum, Datum.allBound_expression]
    exact ⟨Occurrence.isBound_tree ⟨name, some args⟩, by simpa using Term.allBound_data args⟩

theorem Term.allBound_data : ∀ ts : List Term, ∀ d ∈ Term.data ts, d.AllBound
  | [] => by simp [Term.data]
  | t :: ts => by simpa [Term.data] using ⟨Term.allBound_datum t, Term.allBound_data ts⟩

end

theorem Occurrence.allBound_tree (o : Occurrence) : o.tree.AllBound := by
  cases hargs : o.args with
  | none => simp [tree, hargs]
  | some args => simpa [tree, hargs] using Term.allBound_data args

theorem TypedVar.allBound_datum (v : TypedVar) : v.datum.AllBound := by simp [TypedVar.datum]

theorem CommaTail.exists_of_mem {α : Type} {W : α → List Lexeme → Prop} {as : List α}
    {ls : List Lexeme} (h : CommaTail W as ls) {a : α} (ha : a ∈ as) :
    ∃ l, W a l ∧ l.length < ls.length := by
  obtain ⟨l, hl, hinfix⟩ := h.exists_infix ha
  exact ⟨l, hl, hinfix.length_le⟩

theorem CommaList.exists_of_mem {α : Type} {W : α → List Lexeme → Prop} {as : List α}
    {ls : List Lexeme} (h : CommaList W as ls) {a : α} (ha : a ∈ as) :
    ∃ l, W a l ∧ l.length ≤ ls.length := by
  obtain ⟨l, hl, hinfix⟩ := h.exists_infix ha
  exact ⟨l, hl, hinfix.length_le⟩

/-- All expressions in well-shaped ones with fewer lexemes are bound. -/
def BoundBelow (k : Nat) : Prop :=
  ∀ (e : Expr) (ls : List Lexeme), e.Written ls → e.isWellShaped = true → ls.length < k →
    (Datum.expression e.tree).AllBound

section Parts

variable {k : Nat} (hbelow : BoundBelow k)
include hbelow

theorem Case.allBound_datum {c : Case} {ls : List Lexeme} (h : c.Written ls)
    (hshape : c.isWellShaped = true) (hk : ls.length ≤ k) : c.datum.AllBound := by
  cases h with
  | value _ hguard hbody =>
    simp only [Case.isWellShaped, Bool.and_eq_true] at hshape
    simp only [List.length_cons, List.length_append] at hk
    have hguard' := hbelow _ _ hguard hshape.1 (by omega)
    have hbody' := hbelow _ _ hbody hshape.2 (by omega)
    simpa [Case.datum] using ⟨hguard', hbody'⟩
  | default hbody =>
    simp only [List.length_cons] at hk
    have hbody' := hbelow _ _ hbody hshape (by omega)
    simpa [Case.datum] using hbody'

theorem Outcome.allBound_datum {o : Outcome} {ls : List Lexeme} (h : o.Written ls)
    (hshape : o.isWellShaped = true) (hk : ls.length ≤ k) : o.datum.AllBound := by
  cases h with
  | weighted _ hweight =>
    simp only [List.length_cons, List.length_append] at hk
    have hweight' := hbelow _ _ hweight hshape (by omega)
    simpa [Outcome.datum] using hweight'

theorem Outcome.allBound_datum_first {o : Outcome} {ls : List Lexeme} (h : o.FirstWritten ls)
    (hshape : o.isWellShaped = true) (hk : ls.length ≤ k) : o.datum.AllBound := by
  cases h with
  | weighted hlabel hweight =>
    exact Outcome.allBound_datum hbelow (.weighted hlabel hweight) hshape hk
  | otherwise _ => simp [Outcome.datum]

/-- The variables of a binder have no expressions in them. -/
theorem allBound_binder (head : String) (vars : List TypedVar) {body : Expr} {ls : List Lexeme}
    (h : body.Written ls) (hshape : body.isWellShaped = true) (hk : ls.length < k) :
    (Datum.binder head vars body.tree).AllBound := by
  have hbody := hbelow _ _ h hshape hk
  have hparts : ∀ d ∈ vars.map TypedVar.datum ++ [.expression body.tree], d.AllBound := by
    simp only [List.mem_append, List.mem_map, List.mem_singleton]
    rintro d (⟨v, -, rfl⟩ | rfl)
    · exact v.allBound_datum
    · exact hbody
  simpa only [Datum.binder, Datum.allBound_tuple, List.forall_mem_cons, Datum.allBound_text,
    true_and, List.not_mem_nil, false_implies, implies_true, and_true] using hparts

/-- All expressions in a well-shaped tree are bound if those in shorter ones are. -/
theorem Expr.allBound_tree {e : Expr} {ls : List Lexeme} (h : e.Written ls)
    (hshape : e.isWellShaped = true) (hk : ls.length ≤ k) : e.tree.AllBound := by
  -- `hbelow` is for fewer lexemes, and every part of an expression has fewer than the whole
  cases h with
  -- no expressions inside; those among the arguments of a fluent are not wrapped
  | enumValue name => simp [Expr.tree]
  | «variable» name => simp [Expr.tree]
  | truth value => simp [Expr.tree]
  | integer value => simp [Expr.tree]
  | real value => simp [Expr.tree]
  | @occurrence o _ ho => exact o.allBound_tree
  -- brackets and lists of arguments
  | group bracket hbody =>
    simp only [List.length_cons, List.length_append] at hk
    exact hbelow _ _ hbody hshape (by omega)
  | @call function args _ hargs =>
    simp only [List.length_cons, List.length_append] at hk
    have hargs' : ∀ a ∈ args, (Datum.expression a.tree).AllBound := by
      intro a ha
      obtain ⟨l, hl, hlt⟩ := hargs.exists_of_mem ha
      exact hbelow a l hl (Expr.areWellShaped_iff.mp hshape a ha) (by omega)
    simpa [Expr.tree, Expr.data_eq_map, Expr.datum] using hargs'
  -- operations: the parts of a well-shaped expression are well-shaped
  | binary op hleft hright =>
    simp only [List.length_cons, List.length_append] at hk
    obtain ⟨hl, hr, -, -, -⟩ := Expr.isWellShaped_binary.mp hshape
    have hleft' := hbelow _ _ hleft hl (by omega)
    have hright' := hbelow _ _ hright hr (by omega)
    simpa [Expr.tree] using ⟨hleft', hright'⟩
  | unary op hbody =>
    simp only [List.length_cons] at hk
    simp only [Expr.isWellShaped, Bool.and_eq_true] at hshape
    have hbody' := hbelow _ _ hbody hshape.1 (by omega)
    simpa [Expr.tree] using hbody'
  -- binders, whose variables hold no expressions
  | quantified quantifier hvars hbody =>
    simp only [List.length_cons, List.length_append] at hk
    exact allBound_binder hbelow _ _ hbody hshape (by omega)
  | aggregated operator hvars hbody =>
    simp only [List.length_cons, List.length_append] at hk
    exact allBound_binder hbelow _ _ hbody hshape (by omega)
  -- conditionals and switches
  | conditional hcondition hyes hno =>
    simp only [List.length_cons, List.length_append] at hk
    simp only [Expr.isWellShaped, Bool.and_eq_true] at hshape
    have hcondition' := hbelow _ _ hcondition hshape.1.1 (by omega)
    have hyes' := hbelow _ _ hyes hshape.1.2 (by omega)
    have hno' := hbelow _ _ hno hshape.2 (by omega)
    simpa [Expr.tree] using ⟨hcondition', hyes', hno'⟩
  | @switch subject cases _ _ _ hsubject hcases =>
    simp only [List.length_cons, List.length_append] at hk
    simp only [Expr.isWellShaped, Bool.and_eq_true] at hshape
    have hsubject' := hbelow _ _ hsubject hshape.1 (by omega)
    have hcases' : ∀ c ∈ cases, c.datum.AllBound := by
      intro c hc
      obtain ⟨l, hl, hlt⟩ := hcases.exists_of_mem hc
      exact Case.allBound_datum hbelow hl (Case.areWellShaped_iff.mp hshape.2 c hc) (by omega)
    simpa [Expr.tree, Case.data_eq_map] using ⟨hsubject', hcases'⟩
  -- distributions
  | random distribution hparameter =>
    simp only [List.length_cons, List.length_append] at hk
    have hparameter' := hbelow _ _ hparameter hshape (by omega)
    simpa [Expr.tree] using hparameter'
  | randomPair distribution hfirst hsecond =>
    simp only [List.length_cons, List.length_append] at hk
    simp only [Expr.isWellShaped, Bool.and_eq_true] at hshape
    have hfirst' := hbelow _ _ hfirst hshape.1 (by omega)
    have hsecond' := hbelow _ _ hsecond hshape.2 (by omega)
    simpa [Expr.tree] using ⟨hfirst', hsecond'⟩
  | dirichlet type hparameter =>
    simp only [List.length_cons, List.length_append] at hk
    have hparameter' := hbelow _ _ hparameter hshape (by omega)
    simpa [Expr.tree] using hparameter'
  | @discrete type first rest _ _ hfirst hrest =>
    simp only [List.length_cons, List.length_append] at hk
    simp only [Expr.isWellShaped, Outcome.areWellShaped, Bool.and_eq_true] at hshape
    have hfirst' := Outcome.allBound_datum_first hbelow hfirst hshape.1 (by omega)
    have hrest' : ∀ o ∈ rest, o.datum.AllBound := by
      intro o ho
      obtain ⟨l, hl, hlt⟩ := hrest.exists_of_mem ho
      exact Outcome.allBound_datum hbelow hl (Outcome.areWellShaped_iff.mp hshape.2 o ho) (by omega)
    simpa [Expr.tree, Outcome.data_eq_map, Outcome.data] using ⟨hfirst', hrest'⟩

end Parts

theorem Expr.allBound_datum {e : Expr} {ls : List Lexeme} (h : e.Written ls)
    (hshape : e.isWellShaped = true) : e.datum.AllBound := by
  induction hn : ls.length using Nat.strong_induction_on generalizing e ls with
  | _ n ih =>
    have hbelow : BoundBelow ls.length := fun e' ls' h' hshape' hlt =>
      ih ls'.length (hn ▸ hlt) h' hshape' rfl
    exact Datum.allBound_expression.mpr
      ⟨isBound_tree h hshape, allBound_tree hbelow h hshape (Nat.le_refl _)⟩

/-! ### Sections and models -/

theorem CpfDecl.allBound_datum {f : CpfDecl} {ls : List Lexeme} (h : f.Written ls)
    (hshape : f.body.isWellShaped = true) : f.datum.AllBound := by
  cases h with
  | mk htarget hbody =>
    exact Datum.allBound_cpf.mpr
      ⟨Occurrence.allBound_tree _, Expr.allBound_datum hbody hshape⟩

theorem allBound_conditions {conditions : List Expr} {ls : List Lexeme}
    (h : Items ConditionWritten conditions ls)
    (hshape : ∀ e ∈ conditions, e.isWellShaped = true) :
    (Datum.list (conditions.map Expr.datum)).AllBound := by
  rw [Datum.allBound_list, List.forall_mem_map]
  intro e he
  obtain ⟨l, hl, -⟩ := h.exists_of_mem he
  cases hl with
  | mk hwritten => exact Expr.allBound_datum hwritten (hshape e he)

theorem allBound_functions {header : String} {decls : List CpfDecl} {ls : List Lexeme}
    (h : Items CpfDecl.Written decls ls)
    (hshape : ∀ f ∈ decls, f.body.isWellShaped = true) :
    (Datum.tuple [.text header, .list (decls.map CpfDecl.datum)]).AllBound := by
  have hall : ∀ f ∈ decls, f.datum.AllBound := by
    intro f hf
    obtain ⟨l, hl, -⟩ := h.exists_of_mem hf
    exact CpfDecl.allBound_datum hl (hshape f hf)
  simpa using hall

/-- The keys of the sections of a domain that have expressions in them. -/
def expressionKeys : List String := ["cpfs", "reward", "preconds", "constraints", "invariants"]

theorem DomainSection.allBound_datum {s : DomainSection} {ls : List Lexeme} (h : s.Written ls)
    (hshape : ∀ e ∈ s.expressions, e.isWellShaped = true) (hkey : s.key ∈ expressionKeys) :
    s.datum.AllBound := by
  cases h with
  | types _ => simp [key, expressionKeys] at hkey
  | pvariables _ => simp [key, expressionKeys] at hkey
  | cpfs hdecls => exact allBound_functions hdecls (by simpa [expressions] using hshape)
  | cdfs hdecls => exact allBound_functions hdecls (by simpa [expressions] using hshape)
  | reward hbody => exact Expr.allBound_datum hbody (by simpa [expressions] using hshape)
  | preconditions hconditions => exact allBound_conditions hconditions hshape
  | constraints hconditions => exact allBound_conditions hconditions hshape
  | invariants hconditions => exact allBound_conditions hconditions hshape

theorem Horizon.allBound_datum {limit : Horizon} {ls : List Lexeme} (h : limit.Written ls)
    (hshape : ∀ e ∈ (InstanceSection.horizon limit).expressions, e.isWellShaped = true) :
    limit.datum.AllBound := by
  cases h with
  | steps hcount => cases hcount <;> simp [datum, Bound.datum]
  | condition htest =>
    exact Expr.allBound_datum htest (by simpa [InstanceSection.expressions] using hshape)

/-- What a domain holds under a key is a section of its block, or nothing. -/
theorem Domain.section_or_empty {b : DomainBlock} {d : Domain} (h : ofBlock b = .ok d) :
    ∀ x ∈ [d.cpfs, d.reward, d.preconditions, d.constraints, d.invariants],
      x = .list [] ∨ ∃ s ∈ b.sections, s.key ∈ expressionKeys ∧ s.datum = x := by
  have hgiven : ∀ {key x}, key ∈ expressionKeys →
      (Table.ofList (b.sections.map fun s => (s.key, s.datum))).find? key = some x →
      ∃ s ∈ b.sections, s.key ∈ expressionKeys ∧ s.datum = x := by
    intro key x hkey hfind
    obtain ⟨s, hs, heq⟩ := List.mem_map.mp (Table.mem_of_find?_ofList hfind)
    cases heq
    exact ⟨s, hs, hkey, rfl⟩
  have hneeded : ∀ {key x}, key ∈ expressionKeys →
      (Table.ofList (b.sections.map fun s => (s.key, s.datum))).require key = .ok x →
      ∃ s ∈ b.sections, s.key ∈ expressionKeys ∧ s.datum = x := by
    intro key x hkey hrequire
    obtain ⟨s, hs, rfl, hdatum⟩ := exists_section_of_require hrequire
    exact ⟨s, hs, hkey, hdatum⟩
  have hoptional : ∀ {key}, key ∈ expressionKeys →
      (Table.ofList (b.sections.map fun s => (s.key, s.datum))).orEmpty key = .list [] ∨
      ∃ s ∈ b.sections, s.key ∈ expressionKeys ∧
        s.datum = (Table.ofList (b.sections.map fun s => (s.key, s.datum))).orEmpty key := by
    intro key hkey
    cases hfind : (Table.ofList (b.sections.map fun s => (s.key, s.datum))).find? key with
    | none => exact .inl (by simp [Table.orEmpty, hfind])
    | some x =>
      obtain ⟨s, hs, hmem, rfl⟩ := hgiven hkey hfind
      exact .inr ⟨s, hs, hmem, by simp [Table.orEmpty, hfind]⟩
  simp only [ofBlock, ofSections, except_bind_eq_ok, Except.ok.injEq] at h
  obtain ⟨pvariables, -, cpfs, hcpfs, reward, hreward, rfl⟩ := h
  intro x hx
  simp only [List.mem_cons, List.not_mem_nil, or_false] at hx
  -- the first two sections are needed, the other three may be left out
  rcases hx with rfl | rfl | rfl | rfl | rfl
  · exact .inr (hneeded (by simp [expressionKeys]) hcpfs)
  · exact .inr (hneeded (by simp [expressionKeys]) hreward)
  · exact hoptional (by simp [expressionKeys])
  · exact hoptional (by simp [expressionKeys])
  · exact hoptional (by simp [expressionKeys])

/-- The problem of a model is made from a block of the document. -/
theorem Document.exists_problem_of_model {d : Document} {m : Model} (h : d.model = .ok m) :
    ∃ b, .problem b ∈ d ∧
      m.problem = .problem (.text b.name) (b.sections.map fun s => (s.key, s.datum)) := by
  simp only [model, except_bind_eq_ok] at h
  obtain ⟨domain?, -, h⟩ := h
  unfold Model.ofBlocks at h
  split at h <;> cases h
  next hproblem =>
    obtain ⟨block, hblock, hsome⟩ := List.exists_of_findSome?_eq_some hproblem
    cases block with
    | problem b => exact ⟨b, List.mem_reverse.mp hblock, (Option.some.inj hsome).symm⟩
    | domain b => cases hsome
    | nonFluents b => cases hsome

theorem Attributes.exists_section_of_problem {name : Datum} {sections : List InstanceSection}
    {key : String} {x : Datum} (hkey : key ≠ "name")
    (h : (Attributes.problem name (sections.map fun s => (s.key, s.datum))).find? key = some x) :
    ∃ s ∈ sections, s.key = key ∧ s.datum = x := by
  rw [problem, extend, Table.find?_foldl_insert] at h
  have hbase : (⟨[("name", name)]⟩ : Attributes).find? key = none := by
    simp [Table.find?, Table.findEntry?, Ne.symm hkey]
  rw [hbase, Option.or_none, Option.map_eq_some_iff] at h
  obtain ⟨⟨key', x'⟩, hfind, rfl⟩ := h
  have hsame : key' = key := by simpa using List.find?_some hfind
  subst hsame
  simpa using List.mem_of_find?_eq_some hfind

namespace Model

def expressionData (m : Model) : List Datum :=
  [m.domain.cpfs, m.domain.reward, m.domain.preconditions, m.domain.constraints,
    m.domain.invariants] ++ (m.problem.find? "horizon").toList

/-- **Operators bind by their levels, and to the left.**  In every expression of a model
    that was read from a text, an operation that is not in brackets binds no less tightly
    than the one that it is the left operand of, and more tightly than one that it is the
    right operand of; it is no operand of a unary operator; and no quantifier, aggregation
    or conditional stands, outside all brackets, at the right end of a left operand. -/
theorem isBound_of_mem_nodes {line : Nat} {text : String} {m : Model}
    (h : (Reading.ofText line text).verdict = .model m) :
    ∀ d ∈ m.expressionData, ∀ tree ∈ d.nodes, tree.IsBound := by
  obtain ⟨doc, ls, hwritten, hshape, hmodel, -⟩ := Reading.exists_wellShaped_of_verdict h
  have hshape' := Document.isWellShaped_iff.mp hshape
  -- the sections of the domain
  have hdomain : ∀ d ∈ [m.domain.cpfs, m.domain.reward, m.domain.preconditions,
      m.domain.constraints, m.domain.invariants], d.AllBound := by
    intro d hd
    obtain ⟨b, hb, hblock⟩ := Document.exists_block_of_model hmodel
    rcases Domain.section_or_empty hblock d hd with rfl | ⟨s, hs, hkey, rfl⟩
    · simp
    · obtain ⟨l, hl, -⟩ := Document.exists_written_section hwritten hb hs
      refine DomainSection.allBound_datum hl (fun e he => ?_) hkey
      exact hshape' _ hb e (List.mem_flatMap.mpr ⟨s, hs, he⟩)
  -- the horizon of the instance
  have hhorizon : ∀ d ∈ (m.problem.find? "horizon").toList, d.AllBound := by
    intro d hd
    obtain ⟨b, hb, hproblem⟩ := Document.exists_problem_of_model hmodel
    rw [hproblem, Option.mem_toList] at hd
    obtain ⟨s, hs, hkey, rfl⟩ := Attributes.exists_section_of_problem (by decide) hd
    obtain ⟨l, hl, -⟩ := Document.exists_written_problem hwritten hb hs
    cases hl with
    | horizon hlimit =>
      refine Horizon.allBound_datum hlimit fun e he => ?_
      exact hshape' _ hb e (List.mem_flatMap.mpr ⟨_, hs, he⟩)
    | _ => simp [InstanceSection.key] at hkey
  intro d hd
  rcases List.mem_append.mp hd with hd | hd
  · exact hdomain d hd
  · exact hhorizon d hd

/-- A text with chains of operators, brackets, a quantifier and a conditional. -/
def chainedText : String := "domain d \x7b
  pvariables \x7b \x7d;
  cpfs \x7b p' = p ^ forall_\x7b?x : t\x7d q(?x) | r; \x7d;
  reward = a - b * -c - if (p) then 1 else d + 1;
  action-preconditions \x7b (p => q) => r; \x7d;
\x7d
non-fluents n \x7b \x7d
instance i \x7b horizon = terminate-when (p & q <=> r) \x7d"

/-- The expressions of the text, outermost first, each by the head of its tree. -/
theorem isBound_of_chainedText :
    ∃ m, (Reading.ofText 1 chainedText).verdict = .model m ∧
      (m.expressionData.map fun d => d.nodes.map fun
        | .tuple (.text head :: _) => head
        | _ => "()") =
        [["^", "pvar_expr", "forall", "|", "pvar_expr", "pvar_expr"],
          ["-", "-", "pvar_expr", "*", "pvar_expr", "-", "pvar_expr", "if", "pvar_expr", "number",
            "+", "pvar_expr", "number"],
          ["=>", "()", "=>", "pvar_expr", "pvar_expr", "pvar_expr"], [], [],
          ["<=>", "&", "pvar_expr", "pvar_expr", "pvar_expr"]] ∧
      ∀ d ∈ m.expressionData, ∀ tree ∈ d.nodes, tree.IsBound := by
  have hread : ((Reading.ofText 1 chainedText).verdict.model?.map fun m =>
      m.expressionData.map fun d => d.nodes.map fun
        | .tuple (.text head :: _) => head
        | _ => "()") =
      some [["^", "pvar_expr", "forall", "|", "pvar_expr", "pvar_expr"],
        ["-", "-", "pvar_expr", "*", "pvar_expr", "-", "pvar_expr", "if", "pvar_expr", "number",
          "+", "pvar_expr", "number"],
        ["=>", "()", "=>", "pvar_expr", "pvar_expr", "pvar_expr"], [], [],
        ["<=>", "&", "pvar_expr", "pvar_expr", "pvar_expr"]] := by
    rw [chainedText, Reading.ofText_eq_ofScan 1 rfl]
    decide +kernel
  obtain ⟨m, hmodel, hheads⟩ := Option.map_eq_some_iff.mp hread
  have hverdict := Verdict.eq_model_of_model? hmodel
  exact ⟨m, hverdict, hheads, isBound_of_mem_nodes hverdict⟩

end Model

end Rddl
