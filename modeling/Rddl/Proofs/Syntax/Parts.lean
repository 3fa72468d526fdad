/-
  Rddl/Proofs/Syntax/Parts.lean
  =============================
  **The parts of an expression.**

  `Expr.HasPart e p` says that `p` stands somewhere in `e`, at any depth; a fluent among the
  arguments of another fluent is a part too.  The trees inside the tree of an expression are
  those of its parts (`exists_hasPart_of_mem_nodes`), and what is written in a text has parts
  that are written in it (`exists_written_of_hasPart`), so that all their names are spelled as
  names of their sort (`isProper_of_written`).
-/
import Rddl.Proofs.Precedence
import Rddl.Proofs.Scan.Lines
import Rddl.Proofs.Syntax.Writable

namespace Rddl

/-! ### Parts -/

/-- The fluent that a term is, as an expression. -/
def Term.expr? : Term → Option Expr
  | .variable _ | .enumValue _ => none
  | .fluent name => some (.occurrence ⟨name, none⟩)
  | .applied name args => some (.occurrence ⟨name, some args⟩)

def Occurrence.children (o : Occurrence) : List Expr := (o.args.getD []).filterMap Term.expr?

def Case.children : Case → List Expr
  | .value guard body => [guard, body]
  | .default body => [body]

def Outcome.children : Outcome → List Expr
  | .weighted _ weight => [weight]
  | .otherwise _ => []

namespace Expr

/-- The expressions directly below an expression, in order. -/
def children : Expr → List Expr
  | .enumValue _ | .variable _ | .truth _ | .integer _ | .real _ => []
  | .occurrence fluent => fluent.children
  | .group _ body | .unary _ body => [body]
  | .call _ args => args
  | .binary _ left right => [left, right]
  | .quantified _ _ body | .aggregated _ _ body => [body]
  | .conditional condition yes no => [condition, yes, no]
  | .switch subject cases => subject :: cases.flatMap Case.children
  | .random _ parameter | .dirichlet _ parameter => [parameter]
  | .randomPair _ first second => [first, second]
  | .discrete _ outcomes => outcomes.flatMap Outcome.children

inductive HasPart : Expr → Expr → Prop
  | self (e : Expr) : HasPart e e
  | inside {e child part : Expr} : child ∈ e.children → HasPart child part → HasPart e part

theorem HasPart.child {e c : Expr} (h : c ∈ e.children) : e.HasPart c := .inside h (.self c)

end Expr

/-! ### Induction on parts -/

-- A term becomes an occurrence with an optional list, which is two constructors more.
theorem Term.sizeOf_le_of_expr? {t : Term} {e : Expr} (h : t.expr? = some e) :
    sizeOf e ≤ sizeOf t + 2 := by
  cases t <;> simp only [expr?, Option.some.injEq, reduceCtorEq] at h
  · subst h
    simp
    omega
  · subst h
    simp
    omega

theorem Case.sizeOf_lt_of_mem_children {c : Case} {e : Expr} (h : e ∈ c.children) :
    sizeOf e < sizeOf c := by
  cases c <;> simp [children] at h ⊢ <;> grind

theorem Outcome.sizeOf_lt_of_mem_children {o : Outcome} {e : Expr} (h : e ∈ o.children) :
    sizeOf e < sizeOf o := by
  cases o <;> simp [children] at h ⊢; grind

theorem Occurrence.sizeOf_lt_of_mem_children {o : Occurrence} {e : Expr} (h : e ∈ o.children) :
    sizeOf e < sizeOf o + 1 := by
  obtain ⟨name, args⟩ := o
  cases args with
  | none => simp [children] at h
  | some args =>
    obtain ⟨t, ht, hexpr⟩ := List.mem_filterMap.mp h
    have hmem : sizeOf t < sizeOf args := List.sizeOf_lt_of_mem ht
    have hterm := Term.sizeOf_le_of_expr? hexpr
    simp
    omega

namespace Expr

theorem sizeOf_lt_of_mem_children {e c : Expr} (h : c ∈ e.children) : sizeOf c < sizeOf e := by
  cases e with
  -- children that stand in a list are smaller than the list, which is smaller than the expression
  | occurrence o =>
    have hlt := o.sizeOf_lt_of_mem_children h
    simp
    omega
  | call function args =>
    have hlt := List.sizeOf_lt_of_mem (show c ∈ args from h)
    simp
    omega
  | switch subject cases =>
    rcases List.mem_cons.mp h with rfl | h
    · simp
      omega
    · obtain ⟨c', hc', hmem⟩ := List.mem_flatMap.mp h
      have hlt := c'.sizeOf_lt_of_mem_children hmem
      have hlt' := List.sizeOf_lt_of_mem hc'
      simp
      omega
  | discrete type outcomes =>
    obtain ⟨o, ho, hmem⟩ := List.mem_flatMap.mp h
    have hlt := o.sizeOf_lt_of_mem_children hmem
    have hlt' := List.sizeOf_lt_of_mem ho
    simp
    omega
  | _ => simp [children] at h ⊢; try grind

/-- What holds of an expression whenever it holds of those directly below it. -/
theorem induction_on_children {P : Expr → Prop} (h : ∀ e, (∀ c ∈ e.children, P c) → P e)
    (e : Expr) : P e := by
  induction hsize : sizeOf e using Nat.strong_induction_on generalizing e with
  | _ n ih =>
    refine h e fun c hc => ih (sizeOf c) ?_ c rfl
    rw [← hsize]
    exact sizeOf_lt_of_mem_children hc

end Expr

/-! ### Trees inside trees -/

theorem Term.nodesOf_data (ts : List Term) :
    Datum.nodesOf (Term.data ts) = (ts.filterMap Term.expr?).flatMap fun e => e.datum.nodes := by
  induction ts with
  | nil => rfl
  | cons t ts ih =>
    cases t <;> simp [Term.data, Term.datum, List.filterMap_cons, Term.expr?, Expr.datum, Expr.tree,
      Occurrence.tree, ih]

theorem Case.nodes_datum (c : Case) :
    c.datum.nodes = c.children.flatMap fun e => e.datum.nodes := by
  cases c <;> simp [Case.datum, Case.children, Expr.datum]

theorem Outcome.nodes_datum (o : Outcome) :
    o.datum.nodes = o.children.flatMap fun e => e.datum.nodes := by
  cases o <;> simp [Outcome.datum, Outcome.children, Expr.datum]

theorem TypedVar.nodesOf_data (vars : List TypedVar) (ds : List Datum) :
    Datum.nodesOf (vars.map TypedVar.datum ++ ds) = Datum.nodesOf ds := by
  induction vars with
  | nil => rfl
  | cons v vars ih => simp [TypedVar.datum, ih]

namespace Expr

theorem nodes_tree (e : Expr) : e.tree.nodes = e.children.flatMap fun c => c.datum.nodes := by
  cases e with
  | occurrence o =>
    cases hargs : o.args with
    | none => simp [tree, children, Occurrence.tree, Occurrence.children, hargs]
    | some args =>
      simp [tree, children, Occurrence.tree, Occurrence.children, hargs, Term.nodesOf_data]
  | call function args =>
    simp [tree, children, data_eq_map, Datum.nodesOf_eq_flatMap, List.flatMap_map]
  | quantified q vars body => simp [tree, children, TypedVar.nodesOf_data, datum]
  | aggregated operator vars body => simp [tree, children, TypedVar.nodesOf_data, datum]
  | switch subject cases =>
    simp [tree, children, Case.data_eq_map, Datum.nodesOf_eq_flatMap, List.flatMap_map,
      Case.nodes_datum, List.flatMap_assoc, datum]
  | discrete type outcomes =>
    simp [tree, children, Outcome.data_eq_map, Datum.nodesOf_eq_flatMap, List.flatMap_map,
      Outcome.nodes_datum, List.flatMap_assoc]
  | _ => simp [tree, children, datum]

/-- The trees in the tree of an expression are those of its parts. -/
theorem exists_hasPart_of_mem_nodes {e : Expr} {t : Datum} (h : t ∈ e.datum.nodes) :
    ∃ p, e.HasPart p ∧ p.tree = t := by
  induction e using induction_on_children with
  | _ e ih =>
    rw [datum, Datum.nodes, nodes_tree, List.mem_cons, List.mem_flatMap] at h
    rcases h with rfl | ⟨c, hc, h⟩
    · exact ⟨e, .self e, rfl⟩
    · obtain ⟨p, hp, htree⟩ := ih c hc h
      exact ⟨p, .inside hc hp, htree⟩

end Expr

/-! ### Parts of what is written -/

section Lists

variable {α : Type} {W : α → List Lexeme → Prop} {as : List α} {ls : List Lexeme} {a : α}

theorem CommaTail.exists_subset (h : CommaTail W as ls) (ha : a ∈ as) : ∃ l, W a l ∧ l ⊆ ls := by
  obtain ⟨l, hl, hinfix⟩ := h.exists_infix ha
  exact ⟨l, hl, List.Subset.trans (List.subset_cons_self _ l) hinfix.subset⟩

theorem CommaList.exists_subset (h : CommaList W as ls) (ha : a ∈ as) : ∃ l, W a l ∧ l ⊆ ls := by
  obtain ⟨l, hl, hinfix⟩ := h.exists_infix ha
  exact ⟨l, hl, hinfix.subset⟩

theorem LooseList.exists_subset (h : LooseList W as ls) (ha : a ∈ as) : ∃ l, W a l ∧ l ⊆ ls := by
  have hcons : ∀ {b bs l l'}, W b l → CommaTail W bs l' → a ∈ b :: bs →
      ∃ l₁, W a l₁ ∧ l₁ ⊆ l ++ l' :=
    fun hw has ha => (CommaList.mk hw has).exists_subset ha
  cases h with
  | nil => simp at ha
  | plain hw has => exact hcons hw has ha
  | afterComma hw has =>
    obtain ⟨l, hl, hsub⟩ := hcons hw has ha
    exact ⟨l, hl, List.subset_cons_of_subset _ hsub⟩

end Lists

namespace Expr

theorem exists_written_of_terms {args : List Term} {ls : List Lexeme} {c : Expr}
    (h : LooseList Term.Written args ls) (hc : c ∈ args.filterMap Term.expr?) :
    ∃ l, c.Written l ∧ l ⊆ ls := by
  obtain ⟨t, ht, hexpr⟩ := List.mem_filterMap.mp hc
  obtain ⟨l, hl, hsub⟩ := h.exists_subset ht
  cases hl with
  | «variable» name => cases hexpr
  | enumValue name => cases hexpr
  | fluent name =>
    cases hexpr
    exact ⟨_, .occurrence (.plain name), hsub⟩
  | applied name hargs =>
    cases hexpr
    exact ⟨_, .occurrence (.applied name hargs), hsub⟩

theorem exists_written_of_case {k : Case} {ls : List Lexeme} {c : Expr} (h : k.Written ls)
    (hc : c ∈ k.children) : ∃ l, c.Written l ∧ l ⊆ ls := by
  cases h with
  | value _ hguard hbody =>
    simp only [Case.children, List.mem_cons, List.not_mem_nil, or_false] at hc
    rcases hc with rfl | rfl
    · exact ⟨_, hguard, by simp⟩
    · exact ⟨_, hbody, by grind⟩
  | default hbody =>
    cases List.mem_singleton.mp hc
    exact ⟨_, hbody, by grind⟩

theorem exists_written_of_outcome {o : Outcome} {ls : List Lexeme} {c : Expr}
    (h : o.FirstWritten ls) (hc : c ∈ o.children) : ∃ l, c.Written l ∧ l ⊆ ls := by
  cases h with
  | weighted _ hweight =>
    cases List.mem_singleton.mp hc
    exact ⟨_, hweight, by grind⟩
  | otherwise _ => cases hc

/-- What stands directly below an expression is written where that is written. -/
theorem exists_written_of_mem_children {e c : Expr} {ls : List Lexeme} (h : e.Written ls)
    (hc : c ∈ e.children) : ∃ l, c.Written l ∧ l ⊆ ls := by
  cases h with
  -- nothing below
  | enumValue name => cases hc
  | «variable» name => cases hc
  | truth value => cases hc
  | integer value => cases hc
  | real value => cases hc
  -- only fluents among the arguments are below a fluent
  | occurrence ho =>
    cases ho with
    | plain name => cases hc
    | applied name hargs =>
      obtain ⟨l, hl, hsub⟩ := exists_written_of_terms hargs hc
      exact ⟨l, hl, by grind⟩
  -- a fixed number of children, each written in one place
  | group bracket hbody =>
    cases List.mem_singleton.mp hc
    exact ⟨_, hbody, by grind⟩
  -- the arguments are a list, and a member of it is written with a part of it
  | call function hargs =>
    obtain ⟨l, hl, hsub⟩ := hargs.exists_subset hc
    exact ⟨l, hl, by grind⟩
  | binary op hleft hright =>
    simp only [children, List.mem_cons, List.not_mem_nil, or_false] at hc
    rcases hc with rfl | rfl
    · exact ⟨_, hleft, by grind⟩
    · exact ⟨_, hright, by grind⟩
  | unary op hbody =>
    cases List.mem_singleton.mp hc
    exact ⟨_, hbody, by grind⟩
  | quantified quantifier hvars hbody =>
    cases List.mem_singleton.mp hc
    exact ⟨_, hbody, by grind⟩
  | aggregated operator hvars hbody =>
    cases List.mem_singleton.mp hc
    exact ⟨_, hbody, by grind⟩
  | conditional hcondition hyes hno =>
    simp only [children, List.mem_cons, List.not_mem_nil, or_false] at hc
    rcases hc with rfl | rfl | rfl
    · exact ⟨_, hcondition, by grind⟩
    · exact ⟨_, hyes, by grind⟩
    · exact ⟨_, hno, by grind⟩
  | switch _ hsubject hcases =>
    rcases List.mem_cons.mp hc with rfl | hc
    · exact ⟨_, hsubject, by grind⟩
    · -- below a case, which is a member of a list
      obtain ⟨k, hk, hmem⟩ := List.mem_flatMap.mp hc
      obtain ⟨l, hl, hsub⟩ := hcases.exists_subset hk
      obtain ⟨l', hl', hsub'⟩ := exists_written_of_case hl hmem
      exact ⟨l', hl', by grind⟩
  | random distribution hparameter =>
    cases List.mem_singleton.mp hc
    exact ⟨_, hparameter, by grind⟩
  | randomPair distribution hfirst hsecond =>
    simp only [children, List.mem_cons, List.not_mem_nil, or_false] at hc
    rcases hc with rfl | rfl
    · exact ⟨_, hfirst, by grind⟩
    · exact ⟨_, hsecond, by grind⟩
  | dirichlet type hparameter =>
    cases List.mem_singleton.mp hc
    exact ⟨_, hparameter, by grind⟩
  -- below an outcome: the first one is written in a way of its own
  | discrete type hfirst hrest =>
    obtain ⟨o, ho, hmem⟩ := List.mem_flatMap.mp hc
    rcases List.mem_cons.mp ho with rfl | ho
    · obtain ⟨l, hl, hsub⟩ := exists_written_of_outcome hfirst hmem
      exact ⟨l, hl, by grind⟩
    · obtain ⟨l, hl, hsub⟩ := hrest.exists_subset ho
      cases hl with
      | weighted hlabel hweight =>
        obtain ⟨l', hl', hsub'⟩ := exists_written_of_outcome (.weighted hlabel hweight) hmem
        exact ⟨l', hl', by grind⟩

theorem exists_written_of_hasPart {e p : Expr} {ls : List Lexeme} (h : e.Written ls)
    (hp : e.HasPart p) : ∃ l, p.Written l ∧ l ⊆ ls := by
  induction hp generalizing ls with
  | self e => exact ⟨ls, h, List.Subset.refl ls⟩
  | inside hc _ ih =>
    obtain ⟨l, hl, hsub⟩ := exists_written_of_mem_children h hc
    obtain ⟨l', hl', hsub'⟩ := ih hl
    exact ⟨l', hl', List.Subset.trans hsub' hsub⟩

end Expr

/-! ### Names -/

def Lexeme.AreSpelled (ls : List Lexeme) : Prop := ∀ l ∈ ls, ∃ w, l.Spelled w

theorem Scan.areSpelled_lexemes (line : Nat) (text : String) :
    Lexeme.AreSpelled (Scan.ofText line text).lexemes := by
  intro l hl
  obtain ⟨t, ht, rfl⟩ := List.mem_map.mp hl
  obtain ⟨-, w, hw, -⟩ := (Scan.lined_ofText line text).tokens t ht
  exact ⟨w, hw⟩

namespace Lexeme.Spelled

variable {name : String} {w : List Char}

/-- Names that start with a mark keep it in their lexeme. -/
theorem head?_marked {l : Lexeme} (h : l.Spelled w) :
    (∀ name, l = .variable name → name.toList.head? = some '?') ∧
      ∀ name, l = .enumValue name → name.toList.head? = some '@' := by
  cases h with
  | word _ =>
    simp only [ofName]
    split <;> simp
  | _ => simp

theorem head?_variable (h : Spelled (.variable name) w) : name.toList.head? = some '?' :=
  h.head?_marked.1 name rfl

theorem head?_enumValue (h : Spelled (.enumValue name) w) : name.toList.head? = some '@' :=
  h.head?_marked.2 name rfl

theorem isIdentifier (h : Spelled (.ident name) w) : isIdentifier name = true := by
  generalize hl : Lexeme.ident name = l at h
  cases h with
  | word hw =>
    have hname := ofName_eq_ident hl.symm
    subst hname
    simp only [ofName] at hl
    split at hl
    · cases hl
    · next hword => simpa [Rddl.isIdentifier, hw] using hword
  | _ => cases hl

end Lexeme.Spelled

namespace Expr

/-- Names are spelled as names of their sort, and a binder has variables. -/
def IsNamed : Expr → Prop
  | .enumValue name => name.toList.head? = some '@'
  | .variable name => name.toList.head? = some '?'
  | .quantified _ vars _ => vars ≠ [] ∧ ∀ v ∈ vars, v.name.toList.head? = some '?'
  | .aggregated operator vars _ =>
    isIdentifier operator = true ∧ vars ≠ [] ∧ ∀ v ∈ vars, v.name.toList.head? = some '?'
  | _ => True

def IsProper (e : Expr) : Prop := ∀ p, e.HasPart p → p.IsNamed

theorem IsProper.child {e c : Expr} (h : e.IsProper) (hc : c ∈ e.children) : c.IsProper :=
  fun p hp => h p (.inside hc hp)

theorem isNamed_vars {vars : List TypedVar} {ls : List Lexeme}
    (h : CommaList TypedVar.Written vars ls) (hls : Lexeme.AreSpelled ls) :
    vars ≠ [] ∧ ∀ v ∈ vars, v.name.toList.head? = some '?' := by
  refine ⟨by cases h; simp, fun v hv => ?_⟩
  obtain ⟨l, hl, hsub⟩ := h.exists_subset hv
  cases hl with
  | mk name type =>
    obtain ⟨w, hw⟩ := hls (.variable name) (hsub (by simp))
    exact hw.head?_variable

theorem isNamed_of_written {e : Expr} {ls : List Lexeme} (h : e.Written ls)
    (hls : Lexeme.AreSpelled ls) : e.IsNamed := by
  cases h with
  | enumValue name =>
    obtain ⟨w, hw⟩ := hls (.enumValue name) (by simp)
    exact hw.head?_enumValue
  | «variable» name =>
    obtain ⟨w, hw⟩ := hls (.variable name) (by simp)
    exact hw.head?_variable
  | quantified quantifier hvars hbody =>
    exact isNamed_vars hvars fun l hl => hls l (by simp [hl])
  | aggregated operator hvars hbody =>
    obtain ⟨w, hw⟩ := hls (.ident operator) (by simp)
    exact ⟨hw.isIdentifier, isNamed_vars hvars fun l hl => hls l (by simp [hl])⟩
  | _ => trivial

theorem isProper_of_written {e : Expr} {ls : List Lexeme} (h : e.Written ls)
    (hls : Lexeme.AreSpelled ls) : e.IsProper := by
  intro p hp
  obtain ⟨l, hl, hsub⟩ := exists_written_of_hasPart h hp
  exact isNamed_of_written hl fun x hx => hls x (hsub hx)

end Expr

/-! ### The expressions of a model -/

/-- The expressions in a datum are written with some of the given lexemes. -/
def Datum.NodesWritten (d : Datum) (ls : List Lexeme) : Prop :=
  ∀ t ∈ d.nodes, ∃ (e : Expr) (l : List Lexeme), e.tree = t ∧ e.Written l ∧ l ⊆ ls

theorem Datum.NodesWritten.mono {d : Datum} {ls ls' : List Lexeme} (h : d.NodesWritten ls)
    (hsub : ls ⊆ ls') : d.NodesWritten ls' := by
  intro t ht
  obtain ⟨e, l, htree, hl, hls⟩ := h t ht
  exact ⟨e, l, htree, hl, List.Subset.trans hls hsub⟩

theorem Expr.nodesWritten_datum {e : Expr} {ls : List Lexeme} (h : e.Written ls) :
    e.datum.NodesWritten ls := by
  intro t ht
  obtain ⟨p, hp, rfl⟩ := exists_hasPart_of_mem_nodes ht
  obtain ⟨l, hl, hsub⟩ := exists_written_of_hasPart h hp
  exact ⟨p, l, rfl, hl, hsub⟩

theorem CpfDecl.nodesWritten_datum {f : CpfDecl} {ls : List Lexeme} (h : f.Written ls) :
    f.datum.NodesWritten ls := by
  cases h with
  | mk htarget hbody =>
    intro t ht
    rcases List.mem_append.mp ht with ht | ht
    · have hnodes := Expr.nodesWritten_datum (.occurrence htarget)
      exact hnodes.mono (by simp) t (List.mem_cons_of_mem _ ht)
    · exact (Expr.nodesWritten_datum hbody).mono (by grind) t ht

/-- Items are written where all of them are. -/
theorem Items.nodesWritten {α : Type} {W : α → List Lexeme → Prop} {as : List α}
    {ls : List Lexeme} {datum : α → Datum} (h : Items W as ls)
    (hitem : ∀ a l, W a l → (datum a).NodesWritten l) :
    (Datum.list (as.map datum)).NodesWritten ls := by
  intro t ht
  rw [Datum.nodes, Datum.nodesOf_eq_flatMap, List.flatMap_map, List.mem_flatMap] at ht
  obtain ⟨a, ha, ht⟩ := ht
  obtain ⟨l, hl, hsub⟩ := h.exists_of_mem ha
  exact (hitem a l hl).mono hsub t ht

theorem nodesWritten_conditions {conditions : List Expr} {ls : List Lexeme}
    (h : Items ConditionWritten conditions ls) :
    (Datum.list (conditions.map Expr.datum)).NodesWritten ls := by
  refine h.nodesWritten fun e l hl => ?_
  cases hl with
  | mk hwritten => exact (Expr.nodesWritten_datum hwritten).mono (by simp)

theorem DomainSection.nodesWritten_datum {s : DomainSection} {ls : List Lexeme}
    (h : s.Written ls) (hkey : s.key ∈ expressionKeys) : s.datum.NodesWritten ls := by
  have hbraces : ∀ (l : Lexeme) (ls : List Lexeme), ls ⊆ l :: inBraces ls := fun l ls x hx =>
    List.mem_cons_of_mem l (mem_inBraces hx)
  -- the header of the functions has no expressions in it
  have hfunctions : ∀ {header : String} {decls : List CpfDecl} {l : List Lexeme},
      Items CpfDecl.Written decls l →
      (Datum.tuple [.text header, .list (decls.map CpfDecl.datum)]).NodesWritten l := by
    intro header decls l hdecls
    have hall := hdecls.nodesWritten fun _ _ => CpfDecl.nodesWritten_datum
    intro t ht
    exact hall t (by simpa using ht)
  cases h with
  | types _ => simp [key, expressionKeys] at hkey
  | pvariables _ => simp [key, expressionKeys] at hkey
  | cpfs hdecls => exact (hfunctions hdecls).mono (hbraces _ _)
  | cdfs hdecls => exact (hfunctions hdecls).mono (hbraces _ _)
  | reward hbody => exact (Expr.nodesWritten_datum hbody).mono (by grind)
  | preconditions hconditions => exact (nodesWritten_conditions hconditions).mono (hbraces _ _)
  | constraints hconditions => exact (nodesWritten_conditions hconditions).mono (hbraces _ _)
  | invariants hconditions => exact (nodesWritten_conditions hconditions).mono (hbraces _ _)

theorem Horizon.nodesWritten_datum {limit : Horizon} {ls : List Lexeme} (h : limit.Written ls) :
    limit.datum.NodesWritten ls := by
  cases h with
  | steps hcount =>
    intro t ht
    cases hcount <;> simp [datum, Bound.datum] at ht
  | condition htest => exact (Expr.nodesWritten_datum htest).mono (by grind)

/-- The expressions of a model that was read from a text are written in the text. -/
theorem Model.exists_written_of_mem_nodes {line : Nat} {text : String} {m : Model}
    (h : (Reading.ofText line text).verdict = .model m) :
    ∀ d ∈ m.expressionData, d.NodesWritten (Scan.ofText line text).lexemes := by
  obtain ⟨doc, ls, hwritten, hmodel, hsuffix⟩ := Reading.exists_document_of_verdict h
  intro d hd
  refine Datum.NodesWritten.mono ?_ hsuffix.subset
  rcases List.mem_append.mp hd with hd | hd
  · -- a section of the domain, which may be left out
    obtain ⟨b, hb, hblock⟩ := Document.exists_block_of_model hmodel
    rcases Domain.section_or_empty hblock d hd with rfl | ⟨s, hs, hkey, rfl⟩
    · intro t ht
      simp at ht
    · obtain ⟨l, hl, hsub⟩ := Document.exists_written_section hwritten hb hs
      exact (DomainSection.nodesWritten_datum hl hkey).mono hsub
  · -- the horizon, the only section of an instance with an expression
    obtain ⟨b, hb, hproblem⟩ := Document.exists_problem_of_model hmodel
    rw [hproblem, Option.mem_toList] at hd
    obtain ⟨s, hs, hkey, rfl⟩ := Attributes.exists_section_of_problem (by decide) hd
    obtain ⟨l, hl, hsub⟩ := Document.exists_written_problem hwritten hb hs
    cases hl with
    | horizon hlimit =>
      exact (Horizon.nodesWritten_datum hlimit).mono fun x hx => hsub (List.mem_cons_of_mem _ hx)
    | _ => simp [InstanceSection.key] at hkey

end Rddl
