/-
  Rddl/Proofs/Syntax/Expr.lean
  ============================
  **How expressions are written.**

  `Expr.Written e ls` says that the lexemes `ls` spell the expression `e`, with
  brackets exactly where `e` has them.  The relation does not ask whether operators
  bind as the tree has it; that is a matter of the shape of the tree.  An expression
  can be spelled in more than one way, because the first argument of a fluent may be
  left out before a comma.
-/
import Rddl.Expr

namespace Rddl

/-! ### Lists

Each list relation is over a relation `W` that says how one item is written. -/

section Lists

variable {α : Type} (W : α → List Lexeme → Prop)

/-- Items, each after a comma. -/
inductive CommaTail : List α → List Lexeme → Prop
  | nil : CommaTail [] []
  | cons {a as ls ls'} : W a ls → CommaTail as ls' →
      CommaTail (a :: as) (.symbol .comma :: (ls ++ ls'))

inductive CommaList : List α → List Lexeme → Prop
  | mk {a as ls ls'} : W a ls → CommaTail W as ls' → CommaList (a :: as) (ls ++ ls')

/-- Items divided by commas.  There may be none, and a comma may stand before the first. -/
inductive LooseList : List α → List Lexeme → Prop
  | nil : LooseList [] []
  | plain {a as ls ls'} : W a ls → CommaTail W as ls' → LooseList (a :: as) (ls ++ ls')
  | afterComma {a as ls ls'} : W a ls → CommaTail W as ls' →
      LooseList (a :: as) (.symbol .comma :: (ls ++ ls'))

inductive Items : List α → List Lexeme → Prop
  | nil : Items [] []
  | cons {a as ls ls'} : W a ls → Items as ls' → Items (a :: as) (ls ++ ls')

end Lists

section ListLemmas

variable {α : Type} {W V : α → List Lexeme → Prop} {as : List α} {ls : List Lexeme}

/-- What holds of every item that is no longer than the list holds along the list. -/
theorem CommaTail.imp (h : CommaTail W as ls)
    (hitem : ∀ a l, l.length < ls.length → W a l → V a l) : CommaTail V as ls := by
  induction h with
  | nil => exact .nil
  | cons ha _ ih =>
    refine .cons (hitem _ _ ?_ ha) (ih fun a l hl => hitem a l ?_)
    · simp only [List.length_cons, List.length_append]
      omega
    · simp only [List.length_cons, List.length_append]
      omega

theorem CommaList.imp (h : CommaList W as ls)
    (hitem : ∀ a l, l.length ≤ ls.length → W a l → V a l) : CommaList V as ls := by
  cases h with
  | mk ha has =>
    refine .mk (hitem _ _ (by simp) ha) (has.imp fun a l hl => hitem a l ?_)
    simp only [List.length_append]
    omega

/-- What holds of every item may be carried along the list. -/
theorem CommaTail.carrying {P : α → Prop} (h : CommaTail W as ls) (hP : ∀ a ∈ as, P a) :
    CommaTail (fun a l => P a ∧ W a l) as ls := by
  induction h with
  | nil => exact .nil
  | cons ha _ ih =>
    exact .cons ⟨hP _ (by simp), ha⟩ (ih fun a hmem => hP a (by simp [hmem]))

theorem CommaList.carrying {P : α → Prop} (h : CommaList W as ls) (hP : ∀ a ∈ as, P a) :
    CommaList (fun a l => P a ∧ W a l) as ls := by
  cases h with
  | mk ha has => exact .mk ⟨hP _ (by simp), ha⟩ (has.carrying fun a hmem => hP a (by simp [hmem]))

theorem LooseList.imp (h : LooseList W as ls)
    (hitem : ∀ a l, l.length ≤ ls.length → W a l → V a l) : LooseList V as ls := by
  cases h with
  | nil => exact .nil
  | plain ha has =>
    refine .plain (hitem _ _ (by simp) ha) (has.imp fun a l hl => hitem a l ?_)
    simp only [List.length_append]
    omega
  | afterComma ha has =>
    refine .afterComma (hitem _ _ ?_ ha) (has.imp fun a l hl => hitem a l ?_)
    · simp only [List.length_cons, List.length_append]
      omega
    · simp only [List.length_cons, List.length_append]
      omega

theorem Items.imp (h : Items W as ls) (hitem : ∀ a l, W a l → V a l) : Items V as ls := by
  induction h with
  | nil => exact .nil
  | cons ha _ ih => exact .cons (hitem _ _ ha) ih

theorem Items.carrying {P : α → Prop} (h : Items W as ls) (hP : ∀ a ∈ as, P a) :
    Items (fun a l => P a ∧ W a l) as ls := by
  induction h with
  | nil => exact .nil
  | cons ha _ ih => exact .cons ⟨hP _ (by simp), ha⟩ (ih fun a hmem => hP a (by simp [hmem]))

/-- An item is written in one piece somewhere in the list. -/
theorem Items.exists_infix {a : α} (h : Items W as ls) (ha : a ∈ as) :
    ∃ l, W a l ∧ l <:+: ls := by
  induction h with
  | nil => cases ha
  | @cons b bs l l' hw _ ih =>
    rcases List.mem_cons.mp ha with rfl | ha
    · exact ⟨l, hw, (List.prefix_append l l').isInfix⟩
    · obtain ⟨k, hk, hinfix⟩ := ih ha
      exact ⟨k, hk, hinfix.trans (List.suffix_append l l').isInfix⟩

/-- An item and the comma before it can be taken for one item. -/
theorem CommaTail.items (h : CommaTail W as ls) :
    Items (fun a l => ∃ k, l = .symbol .comma :: k ∧ W a k) as ls := by
  induction h with
  | nil => exact .nil
  | @cons b bs l l' hw _ ih => exact .cons ⟨l, rfl, hw⟩ ih

theorem CommaTail.exists_infix {a : α} (h : CommaTail W as ls) (ha : a ∈ as) :
    ∃ l, W a l ∧ .symbol .comma :: l <:+: ls := by
  obtain ⟨_, ⟨l, rfl, hl⟩, hinfix⟩ := h.items.exists_infix ha
  exact ⟨l, hl, hinfix⟩

theorem CommaList.exists_infix {a : α} (h : CommaList W as ls) (ha : a ∈ as) :
    ∃ l, W a l ∧ l <:+: ls := by
  cases h with
  | @mk b bs l l' hw has =>
    rcases List.mem_cons.mp ha with rfl | ha
    · exact ⟨l, hw, (List.prefix_append l l').isInfix⟩
    · obtain ⟨k, hk, hinfix⟩ := has.exists_infix ha
      have htail := (List.suffix_cons _ k).isInfix.trans hinfix
      exact ⟨k, hk, htail.trans (List.suffix_append l l').isInfix⟩

theorem Items.append {bs : List α} {ls' : List Lexeme} (h : Items W as ls)
    (h' : Items W bs ls') : Items W (as ++ bs) (ls ++ ls') := by
  induction h with
  | nil => exact h'
  | cons ha _ ih =>
    rw [List.append_assoc]
    exact .cons ha ih

theorem Items.exists_append {bs : List α} (h : Items W (as ++ bs) ls) :
    ∃ l l', ls = l ++ l' ∧ Items W as l ∧ Items W bs l' := by
  induction as generalizing ls with
  | nil => exact ⟨[], ls, rfl, .nil, h⟩
  | cons a as ih =>
    cases h with
    | @cons _ _ l _ ha has =>
      obtain ⟨l', l'', rfl, has, hbs⟩ := ih has
      exact ⟨l ++ l', l'', (List.append_assoc ..).symm, .cons ha has, hbs⟩

end ListLemmas

/-! ### Names -/

inductive IdentWritten : String → List Lexeme → Prop
  | mk (name : String) : IdentWritten name [.ident name]

inductive EnumValueWritten : String → List Lexeme → Prop
  | mk (name : String) : EnumValueWritten name [.enumValue name]

inductive LabelWritten : String → List Lexeme → Prop
  | ident (name : String) : LabelWritten name [.ident name]
  | enumValue (name : String) : LabelWritten name [.enumValue name]

/-! ### Terms and occurrences -/

inductive Term.Written : Term → List Lexeme → Prop
  | variable (name : String) : Term.Written (.variable name) [.variable name]
  | enumValue (name : String) : Term.Written (.enumValue name) [.enumValue name]
  | fluent (name : String) : Term.Written (.fluent name) [.ident name]
  | applied (name : String) {args ls} : LooseList Term.Written args ls →
      Term.Written (.applied name args)
        (.ident name :: .symbol .leftParen :: (ls ++ [.symbol .rightParen]))

inductive Occurrence.Written : Occurrence → List Lexeme → Prop
  | plain (name : String) : Occurrence.Written ⟨name, none⟩ [.ident name]
  | applied (name : String) {args ls} : LooseList Term.Written args ls →
      Occurrence.Written ⟨name, some args⟩
        (.ident name :: .symbol .leftParen :: (ls ++ [.symbol .rightParen]))

inductive TypedVar.Written : TypedVar → List Lexeme → Prop
  | mk (name type : String) :
      TypedVar.Written ⟨name, type⟩ [.variable name, .symbol .colon, .ident type]

/-! ### Expressions -/

namespace Bracket

def opening : Bracket → Symbol
  | .round => .leftParen
  | .square => .leftBracket

def closing : Bracket → Symbol
  | .round => .rightParen
  | .square => .rightBracket

end Bracket

def truthKeyword (value : Bool) : Keyword := if value then .trueWord else .falseWord

mutual

inductive Expr.Written : Expr → List Lexeme → Prop
  | enumValue (name : String) : Expr.Written (.enumValue name) [.enumValue name]
  | variable (name : String) : Expr.Written (.variable name) [.variable name]
  | occurrence {o ls} : Occurrence.Written o ls → Expr.Written (.occurrence o) ls
  | group (bracket : Bracket) {body ls} : Expr.Written body ls →
      Expr.Written (.group bracket body)
        (.symbol bracket.opening :: (ls ++ [.symbol bracket.closing]))
  | call (function : String) {args ls} : CommaList Expr.Written args ls →
      Expr.Written (.call function args)
        (.ident function :: .symbol .leftBracket :: (ls ++ [.symbol .rightBracket]))
  | binary (op : BinaryOp) {left right ls rs} : Expr.Written left ls → Expr.Written right rs →
      Expr.Written (.binary op left right) (ls ++ .symbol op.symbol :: rs)
  | unary (op : UnaryOp) {body ls} : Expr.Written body ls →
      Expr.Written (.unary op body) (.symbol op.symbol :: ls)
  | truth (value : Bool) : Expr.Written (.truth value) [.keyword (truthKeyword value)]
  | integer (value : Nat) : Expr.Written (.integer value) [.integer value]
  | real (value : Binary64) : Expr.Written (.real value) [.real value]
  | quantified (quantifier : Quantifier) {vars body vs ls} :
      CommaList TypedVar.Written vars vs → Expr.Written body ls →
      Expr.Written (.quantified quantifier vars body)
        (.keyword quantifier.keyword :: .symbol .underscore :: .symbol .leftCurly ::
          (vs ++ .symbol .rightCurly :: ls))
  | aggregated (operator : String) {vars body vs ls} :
      CommaList TypedVar.Written vars vs → Expr.Written body ls →
      Expr.Written (.aggregated operator vars body)
        (.ident operator :: .symbol .underscore :: .symbol .leftCurly ::
          (vs ++ .symbol .rightCurly :: ls))
  | conditional {condition yes no cs ys ns} :
      Expr.Written condition cs → Expr.Written yes ys → Expr.Written no ns →
      Expr.Written (.conditional condition yes no)
        (.keyword .ifWord :: .symbol .leftParen ::
          (cs ++ .symbol .rightParen :: .keyword .thenWord :: (ys ++ .keyword .elseWord :: ns)))
  | switch {subject cases ss ks} : subject.isSubject = true → Expr.Written subject ss →
      CommaList Case.Written cases ks →
      Expr.Written (.switch subject cases)
        (.keyword .switch :: .symbol .leftParen ::
          (ss ++ .symbol .rightParen :: .symbol .leftCurly :: (ks ++ [.symbol .rightCurly])))
  | random (distribution : UnaryDistribution) {parameter ls} : Expr.Written parameter ls →
      Expr.Written (.random distribution parameter)
        (.keyword distribution.keyword :: .symbol .leftParen :: (ls ++ [.symbol .rightParen]))
  | randomPair (distribution : BinaryDistribution) {first second fs ss} :
      Expr.Written first fs → Expr.Written second ss →
      Expr.Written (.randomPair distribution first second)
        (.keyword distribution.keyword :: .symbol .leftParen ::
          (fs ++ .symbol .comma :: (ss ++ [.symbol .rightParen])))
  | dirichlet (type : String) {parameter ls} : Expr.Written parameter ls →
      Expr.Written (.dirichlet type parameter)
        (.keyword .dirichlet :: .symbol .leftParen :: .ident type :: .symbol .comma ::
          (ls ++ [.symbol .rightParen]))
  | discrete (type : String) {first rest fs rs} :
      Outcome.FirstWritten first fs → CommaTail Outcome.Written rest rs →
      Expr.Written (.discrete type (first :: rest))
        (.keyword .discrete :: .symbol .leftParen :: .ident type :: .symbol .comma ::
          (fs ++ (rs ++ [.symbol .rightParen])))

inductive Case.Written : Case → List Lexeme → Prop
  | value {guard body gs ls} : guard.isSubject = true → Expr.Written guard gs →
      Expr.Written body ls →
      Case.Written (.value guard body) (.keyword .caseWord :: (gs ++ .symbol .colon :: ls))
  | default {body ls} : Expr.Written body ls →
      Case.Written (.default body) (.keyword .defaultWord :: .symbol .colon :: ls)

inductive Outcome.Written : Outcome → List Lexeme → Prop
  | weighted {label weight ns ls} : LabelWritten label ns → Expr.Written weight ls →
      Outcome.Written (.weighted label weight) (ns ++ .symbol .colon :: ls)

/-- How the first outcome of a discrete distribution is written; its weight may be left
    to the other outcomes. -/
inductive Outcome.FirstWritten : Outcome → List Lexeme → Prop
  | weighted {label weight ns ls} : LabelWritten label ns → Expr.Written weight ls →
      Outcome.FirstWritten (.weighted label weight) (ns ++ .symbol .colon :: ls)
  | otherwise {label ns} : LabelWritten label ns →
      Outcome.FirstWritten (.otherwise label) (ns ++ [.symbol .colon, .keyword .otherwise])

end

/-- How an operator of a chain is written with its right operand. -/
def LinkWritten (link : BinaryOp × Expr) (ls : List Lexeme) : Prop :=
  ∃ l, ls = .symbol link.1.symbol :: l ∧ link.2.Written l

/-! ### Operators and distributions

Every word that is read as an operator or a distribution is the word of its own. -/

theorem BinaryOp.ofLexeme?_eq_some {l : Lexeme} {op : BinaryOp} :
    ofLexeme? l = some op ↔ l = .symbol op.symbol := by
  constructor
  · intro h
    unfold ofLexeme? at h
    split at h
    · next mark =>
      cases mark <;> simp_all [ofSymbol?] <;> subst h <;> rfl
    · simp at h
  · rintro rfl
    cases op <;> rfl

theorem UnaryDistribution.keyword_of_ofKeyword? {word : Keyword} {d : UnaryDistribution}
    (h : ofKeyword? word = some d) : word = d.keyword := by
  cases word <;> simp_all [ofKeyword?] <;> subst h <;> rfl

theorem BinaryDistribution.keyword_of_ofKeyword? {word : Keyword} {d : BinaryDistribution}
    (h : ofKeyword? word = some d) : word = d.keyword := by
  cases word <;> simp_all [ofKeyword?] <;> subst h <;> rfl

end Rddl
