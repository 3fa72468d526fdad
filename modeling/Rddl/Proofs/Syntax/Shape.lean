/-
  Rddl/Proofs/Syntax/Shape.lean
  =============================
  **Trees that need no further brackets.**

  `Expr.isWellShaped` says of a tree that its operators stand where they bind by
  themselves: an operation on the left binds no less tightly than the one above it, one
  on the right binds more tightly, and nothing that takes up all that follows it ends a
  left operand.  Such a tree is the chain of its operands put together again
  (`assemble_links`), and the chain is spelled as the tree is (`exists_chain_written`).
  In turn, a chain in which no operand takes up the operator behind it is put together
  to a well-shaped tree (`isWellShaped_assemble`).
-/
import Rddl.Document
import Rddl.Proofs.Syntax.Expr

namespace Rddl

/-! ### Well-shaped trees -/

namespace Expr

/-- How tightly an operation that is not in brackets binds. -/
def level? : Expr → Option Nat
  | .binary op _ _ => some op.level
  | _ => none

/-- Whether a quantifier, an aggregation or a conditional stands on the right edge of a
    tree, outside all brackets. -/
def isOpen : Expr → Bool
  | .quantified .. | .aggregated .. | .conditional .. => true
  | .binary _ _ right => right.isOpen
  | .unary _ body => body.isOpen
  | _ => false

end Expr

mutual

/-- Whether every operator of a tree binds as the tree has it. -/
def Expr.isWellShaped : Expr → Bool
  | .binary op left right =>
    left.isWellShaped && right.isWellShaped && !left.isOpen &&
      left.level?.all (op.level ≤ ·) && right.level?.all (op.level < ·)
  | .unary _ body => body.isWellShaped && body.level?.isNone
  | .group _ body => body.isWellShaped
  | .call _ args => Expr.areWellShaped args
  | .quantified _ _ body => body.isWellShaped
  | .aggregated _ _ body => body.isWellShaped
  | .conditional condition yes no =>
    condition.isWellShaped && yes.isWellShaped && no.isWellShaped
  | .switch subject cases => subject.isWellShaped && Case.areWellShaped cases
  | .random _ parameter => parameter.isWellShaped
  | .randomPair _ first second => first.isWellShaped && second.isWellShaped
  | .dirichlet _ parameter => parameter.isWellShaped
  | .discrete _ outcomes => Outcome.areWellShaped outcomes
  | .enumValue _ | .variable _ | .occurrence _ | .truth _ | .integer _ | .real _ => true

def Expr.areWellShaped : List Expr → Bool
  | [] => true
  | e :: es => e.isWellShaped && Expr.areWellShaped es

def Case.isWellShaped : Case → Bool
  | .value guard body => guard.isWellShaped && body.isWellShaped
  | .default body => body.isWellShaped

def Case.areWellShaped : List Case → Bool
  | [] => true
  | c :: cs => c.isWellShaped && Case.areWellShaped cs

def Outcome.isWellShaped : Outcome → Bool
  | .weighted _ weight => weight.isWellShaped
  | .otherwise _ => true

def Outcome.areWellShaped : List Outcome → Bool
  | [] => true
  | o :: os => o.isWellShaped && Outcome.areWellShaped os

end

theorem Expr.areWellShaped_iff {es : List Expr} :
    Expr.areWellShaped es = true ↔ ∀ e ∈ es, e.isWellShaped = true := by
  induction es with
  | nil => simp [areWellShaped]
  | cons e es ih => simp [areWellShaped, ih]

theorem Case.areWellShaped_iff {cs : List Case} :
    Case.areWellShaped cs = true ↔ ∀ c ∈ cs, c.isWellShaped = true := by
  induction cs with
  | nil => simp [areWellShaped]
  | cons c cs ih => simp [areWellShaped, ih]

theorem Outcome.areWellShaped_iff {os : List Outcome} :
    Outcome.areWellShaped os = true ↔ ∀ o ∈ os, o.isWellShaped = true := by
  induction os with
  | nil => simp [areWellShaped]
  | cons o os ih => simp [areWellShaped, ih]

namespace Expr

/-- The shape of an operation, as conditions on its operands. -/
theorem isWellShaped_binary {op : BinaryOp} {left right : Expr} :
    (binary op left right).isWellShaped = true ↔
      left.isWellShaped = true ∧ right.isWellShaped = true ∧ left.isOpen = false ∧
        (∀ level ∈ left.level?, op.level ≤ level) ∧ ∀ level ∈ right.level?, op.level < level := by
  rw [isWellShaped]
  cases left.level? <;> cases right.level? <;> simp [and_assoc]

/-! ### Chains -/

/-- The first operand of the chain that a tree is. -/
def first : Expr → Expr
  | .binary _ left _ => left.first
  | e => e

/-- The operators of the chain that a tree is, each with its right operand. -/
def links : Expr → List (BinaryOp × Expr)
  | .binary op left right => left.links ++ (op, right.first) :: right.links
  | _ => []

theorem first_eq_self {e : Expr} (h : ∀ op left right, e ≠ .binary op left right) :
    e.first = e := by
  cases e with
  | binary op left right => exact absurd rfl (h op left right)
  | _ => rfl

theorem level?_eq_none {e : Expr} (h : ∀ op left right, e ≠ .binary op left right) :
    e.level? = none := by
  cases e with
  | binary op left right => exact absurd rfl (h op left right)
  | _ => rfl

/-- What an operation outbinds, all operators of its chain outbind. -/
theorem le_level_of_mem_links {e : Expr} {bound : Nat} {link : BinaryOp × Expr}
    (hshape : e.isWellShaped = true) (hlevel : ∀ level ∈ e.level?, bound ≤ level)
    (hlink : link ∈ e.links) : bound ≤ link.1.level := by
  fun_induction links e with
  | case1 op left right ihleft ihright =>
    obtain ⟨hleft, hright, -, hlow, hhigh⟩ := isWellShaped_binary.mp hshape
    have hop : bound ≤ op.level := hlevel op.level rfl
    rcases List.mem_append.mp hlink with hmem | hmem
    · exact ihleft hleft (fun level h => Nat.le_trans hop (hlow level h)) hmem
    · rcases List.mem_cons.mp hmem with rfl | hmem
      · exact hop
      · exact ihright hright (fun level h => Nat.le_trans hop (Nat.le_of_lt (hhigh level h))) hmem
  | case2 e hne => simp at hlink

theorem attach_of_le {op : BinaryOp} {operand e : Expr}
    (h : ∀ level ∈ e.level?, op.level ≤ level) : attach op operand e = .binary op e operand := by
  cases e with
  | binary op' left right =>
    have hle := h op'.level rfl
    rw [attach, if_neg (by omega)]
  | _ => rfl

/-- Operators that bind more tightly than an operation belong to its right operand. -/
theorem foldl_attach_binary {op : BinaryOp} {left right : Expr}
    {chain : List (BinaryOp × Expr)} (h : ∀ link ∈ chain, op.level < link.1.level) :
    chain.foldl (fun e link => attach link.1 link.2 e) (.binary op left right) =
      .binary op left (chain.foldl (fun e link => attach link.1 link.2 e) right) := by
  induction chain generalizing right with
  | nil => rfl
  | cons link rest ih =>
    have hlink := h link (by simp)
    rw [List.foldl_cons, List.foldl_cons, attach, if_pos hlink]
    exact ih fun link' hmem => h link' (by simp [hmem])

/-- **A well-shaped tree is its chain put together.** -/
theorem assemble_links {e : Expr} (h : e.isWellShaped = true) :
    assemble e.first e.links = e := by
  fun_induction links e with
  | case1 op left right ihleft ihright =>
    obtain ⟨hleft, hright, -, hlow, hhigh⟩ := isWellShaped_binary.mp h
    have htight : ∀ link ∈ right.links, op.level < link.1.level := fun link hmem =>
      le_level_of_mem_links hright hhigh hmem
    calc assemble left.first (left.links ++ (op, right.first) :: right.links)
        = right.links.foldl (fun e link => attach link.1 link.2 e)
            (attach op right.first (assemble left.first left.links)) := by
          simp [assemble]
      _ = right.links.foldl (fun e link => attach link.1 link.2 e)
            (.binary op left right.first) := by
          rw [ihleft hleft, attach_of_le hlow]
      _ = .binary op left (assemble right.first right.links) := foldl_attach_binary htight
      _ = .binary op left right := by rw [ihright hright]
  | case2 e hne => rw [first_eq_self hne, assemble, List.foldl_nil]

/-! ### Operands of a chain -/

/-- A tree that can stand between operators. -/
structure IsOperand (e : Expr) : Prop where
  shape : e.isWellShaped = true
  level : e.level? = none

def lastOperand : Expr → List (BinaryOp × Expr) → Expr
  | e, [] => e
  | _, (_, e) :: rest => lastOperand e rest

/-- Operands with operators between them, none of which takes up the operator behind it. -/
def Linked : Expr → List (BinaryOp × Expr) → Prop
  | e, [] => e.IsOperand
  | e, (_, next) :: rest => e.IsOperand ∧ e.isOpen = false ∧ Linked next rest

theorem Linked.isOperand {e : Expr} {chain : List (BinaryOp × Expr)} (h : Linked e chain) :
    e.IsOperand := by
  cases chain with
  | nil => exact h
  | cons link rest => exact h.1

theorem lastOperand_append (e next : Expr) (op : BinaryOp) (xs ys : List (BinaryOp × Expr)) :
    lastOperand e (xs ++ (op, next) :: ys) = lastOperand next ys := by
  induction xs generalizing e with
  | nil => rfl
  | cons x xs ih => exact ih x.2

theorem Linked.append {e next : Expr} {op : BinaryOp} {xs ys : List (BinaryOp × Expr)}
    (h : Linked e xs) (hclosed : (lastOperand e xs).isOpen = false) (hnext : Linked next ys) :
    Linked e (xs ++ (op, next) :: ys) := by
  induction xs generalizing e with
  | nil => exact ⟨h, hclosed, hnext⟩
  | cons x xs ih =>
    obtain ⟨hoperand, hopen, hrest⟩ := h
    exact ⟨hoperand, hopen, ih hrest hclosed⟩

theorem isOpen_lastOperand (e : Expr) : (lastOperand e.first e.links).isOpen = e.isOpen := by
  fun_induction links e with
  | case1 op left right ihleft ihright =>
    rw [lastOperand_append, ihright, isOpen]
  | case2 e hne => rw [first_eq_self hne, lastOperand]

theorem linked_links {e : Expr} (h : e.isWellShaped = true) : Linked e.first e.links := by
  fun_induction links e with
  | case1 op left right ihleft ihright =>
    obtain ⟨hleft, hright, hclosed, -, -⟩ := isWellShaped_binary.mp h
    exact (ihleft hleft).append ((isOpen_lastOperand left).trans hclosed) (ihright hright)
  | case2 e hne =>
    rw [first_eq_self hne]
    exact ⟨h, level?_eq_none hne⟩

/-! ### Putting a chain together -/

/-- An operator is added with its operand at the right end of a tree. -/
theorem isOpen_attach (op : BinaryOp) (operand e : Expr) :
    (attach op operand e).isOpen = operand.isOpen := by
  fun_induction attach op operand e with
  | case1 op' left right hlevel ih => exact ih
  | case2 op' left right hlevel => rfl
  | case3 e hbinary => rfl

theorem level_of_attach {op : BinaryOp} {operand e : Expr} {level : Nat}
    (h : level ∈ (attach op operand e).level?) : level = op.level ∨ level ∈ e.level? := by
  fun_induction attach op operand e with
  | case1 op' left right hlevel ih => exact .inr h
  | case2 op' left right hlevel => exact .inl (Option.some.inj h).symm
  | case3 e hbinary => exact .inl (Option.some.inj h).symm

theorem isWellShaped_attach {op : BinaryOp} {operand e : Expr} (he : e.isWellShaped = true)
    (hclosed : e.isOpen = false) (hoperand : operand.IsOperand) :
    (attach op operand e).isWellShaped = true := by
  fun_induction attach op operand e with
  | case1 op' left right hlevel ih =>
    obtain ⟨hleft, hright, hopen, hlow, hhigh⟩ := isWellShaped_binary.mp he
    refine isWellShaped_binary.mpr ⟨hleft, ih hright hclosed, hopen, hlow, ?_⟩
    intro level hmem
    rcases level_of_attach hmem with rfl | hmem
    · exact hlevel
    · exact hhigh level hmem
  | case2 op' left right hlevel =>
    refine isWellShaped_binary.mpr ⟨he, hoperand.shape, hclosed, ?_, by simp [hoperand.level]⟩
    rintro level ⟨rfl⟩
    exact Nat.le_of_not_lt hlevel
  | case3 e hbinary =>
    refine isWellShaped_binary.mpr ⟨he, hoperand.shape, hclosed, ?_, by simp [hoperand.level]⟩
    simp [level?_eq_none hbinary]

/-- What is put together so far ends with the last operand, so it is open if that is. -/
theorem isWellShaped_foldl_attach {e last : Expr} {chain : List (BinaryOp × Expr)}
    (he : e.isWellShaped = true) (hopen : e.isOpen = last.isOpen) (hchain : Linked last chain) :
    (chain.foldl (fun e link => attach link.1 link.2 e) e).isWellShaped = true := by
  induction chain generalizing e last with
  | nil => exact he
  | cons link rest ih =>
    obtain ⟨-, hclosed, hrest⟩ := hchain
    exact ih (isWellShaped_attach he (hopen.trans hclosed) hrest.isOperand)
      (isOpen_attach link.1 link.2 e) hrest

/-- **A linked chain is put together to a well-shaped tree.** -/
theorem isWellShaped_assemble {first : Expr} {chain : List (BinaryOp × Expr)}
    (h : Linked first chain) : (assemble first chain).isWellShaped = true :=
  isWellShaped_foldl_attach h.isOperand.shape rfl h

/-! ### Spellings of chains -/

/-- Wherever an operator ends up in the tree, it stands behind all that was there. -/
theorem attach_written (op : BinaryOp) {operand e : Expr} {ls rs : List Lexeme}
    (he : e.Written ls) (hoperand : operand.Written rs) :
    (attach op operand e).Written (ls ++ .symbol op.symbol :: rs) := by
  -- an operator that binds more tightly goes down the right edge, past no lexeme
  fun_induction attach op operand e generalizing ls with
  | case1 op' left right hlevel ih =>
    cases he with
    | binary _ hleft hright =>
      rw [List.append_assoc, List.cons_append]
      exact .binary op' hleft (ih hright)
  | case2 op' left right hlevel => exact .binary op he hoperand
  | case3 e hbinary => exact .binary op he hoperand

theorem assemble_written {first : Expr} {chain : List (BinaryOp × Expr)} {ls rs : List Lexeme}
    (hfirst : first.Written ls) (hchain : Items LinkWritten chain rs) :
    (assemble first chain).Written (ls ++ rs) := by
  induction hchain generalizing first ls with
  | nil => simpa [assemble] using hfirst
  | @cons link _ _ _ hlink hrest ih =>
    obtain ⟨l, rfl, hoperand⟩ := hlink
    have h := ih (attach_written link.1 hfirst hoperand)
    simpa [assemble] using h

/-- **The chain of a tree is spelled as the tree is.** -/
theorem exists_chain_written {e : Expr} {ls : List Lexeme} (h : e.Written ls) :
    ∃ fs cs, ls = fs ++ cs ∧ e.first.Written fs ∧ Items LinkWritten e.links cs := by
  fun_induction links e generalizing ls with
  | case1 op left right ihleft ihright =>
    cases h with
    | binary _ hleft hright =>
      obtain ⟨fs, cs, rfl, hfirst, hchain⟩ := ihleft hleft
      obtain ⟨gs, ds, rfl, hnext, hrest⟩ := ihright hright
      refine ⟨fs, cs ++ .symbol op.symbol :: (gs ++ ds), by simp, hfirst, ?_⟩
      exact hchain.append (.cons ⟨gs, rfl, hnext⟩ hrest)
  | case2 e hne =>
    refine ⟨ls, [], by simp, ?_, .nil⟩
    rwa [first_eq_self hne]

theorem level?_first (e : Expr) : e.first.level? = none := by
  fun_induction first e with
  | case1 op left right ih => exact ih
  | case2 e hne => exact level?_eq_none hne

/-- An expression starts with a lexeme of its own; a left-out weight is none, and no more is
    a closing brace. -/
theorem Written.starts {e : Expr} {ls : List Lexeme} (h : e.Written ls) :
    ∃ x xs, ls = x :: xs ∧ x ≠ .keyword .otherwise ∧ x ≠ .symbol .rightCurly := by
  -- the first operand is no operation, so its first lexeme is its own
  obtain ⟨fs, cs, rfl, hfirst, -⟩ := exists_chain_written h
  have hlevel := level?_first e
  generalize e.first = o at hfirst hlevel
  cases hfirst with
  | binary op _ _ => cases hlevel
  | occurrence ho => cases ho <;> exact ⟨_, _, rfl, by simp⟩
  | truth value => cases value <;> exact ⟨_, _, rfl, by simp [truthKeyword]⟩
  | group bracket _ => cases bracket <;> exact ⟨_, _, rfl, by simp [Bracket.opening]⟩
  | unary op _ => cases op <;> exact ⟨_, _, rfl, by simp [UnaryOp.symbol]⟩
  | quantified quantifier _ _ =>
    cases quantifier <;> exact ⟨_, _, rfl, by simp [Quantifier.keyword]⟩
  | random distribution _ =>
    cases distribution <;> exact ⟨_, _, rfl, by simp [UnaryDistribution.keyword]⟩
  | randomPair distribution _ _ =>
    cases distribution <;> exact ⟨_, _, rfl, by simp [BinaryDistribution.keyword]⟩
  | _ => exact ⟨_, _, rfl, by simp⟩

end Expr

/-! ### Documents -/

def DomainSection.expressions : DomainSection → List Expr
  | .cpfs _ decls => decls.map CpfDecl.body
  | .reward body => [body]
  | .preconditions conditions | .constraints conditions | .invariants conditions => conditions
  | .types _ | .pvariables _ => []

def InstanceSection.expressions : InstanceSection → List Expr
  | .horizon (.condition test) => [test]
  | _ => []

def Block.expressions : Block → List Expr
  | .domain block => block.sections.flatMap DomainSection.expressions
  | .nonFluents _ => []
  | .problem block => block.sections.flatMap InstanceSection.expressions

namespace Document

/-- Whether every operator in a document binds as the trees have it. -/
def isWellShaped (d : Document) : Bool := d.all fun block => block.expressions.all Expr.isWellShaped

theorem isWellShaped_iff {d : Document} :
    d.isWellShaped = true ↔ ∀ block ∈ d, ∀ e ∈ block.expressions, e.isWellShaped = true := by
  simp [isWellShaped]

end Document

end Rddl
