/-
  Rddl/Proofs/Syntax/Listing.lean
  ===============================
  **Which expressions can be listed.**

  An expression is listed with its kind and, one below the other, its arguments.  The walk is
  bounded by the number of nodes, and the bound is never reached, so what decides is what stands
  among the arguments: texts, tuples and expressions are listed, literals are not.  A literal gets
  there in one way only, behind an aggregation that is named as the mark of a function or of a
  distribution and binds one variable (`Expr.isListable`).
-/
import Rddl.Proofs.Syntax.Heads

namespace Rddl

/-! ### Data without declarations -/

namespace Datum

mutual

/-- Whether neither declared variables nor functions stand in a datum. -/
def isPlain : Datum → Bool
  | .tuple ds => arePlain ds
  | .list ds => arePlain ds
  | .expression t => t.isPlain
  | .pvariable .. => false
  | .cpf .. => false
  | .text _ | .integer _ | .real _ | .truth _ | .absent => true

def arePlain : List Datum → Bool
  | [] => true
  | d :: ds => d.isPlain && arePlain ds

end

theorem arePlain_iff {ds : List Datum} : arePlain ds = true ↔ ∀ d ∈ ds, d.isPlain = true := by
  induction ds with
  | nil => simp [arePlain]
  | cons d ds ih => simp [arePlain, ih]

theorem size_le_sizeAll {d : Datum} {ds : List Datum} (h : d ∈ ds) : d.size ≤ sizeAll ds := by
  induction ds with
  | nil => cases h
  | cons x ds ih =>
    rw [sizeAll]
    rcases List.mem_cons.mp h with rfl | h
    · omega
    · have hle := ih h
      omega

theorem size_pos (d : Datum) : 0 < d.size := by
  cases d <;> simp [size]

/-- The items of a datum are no larger than it, and as plain. -/
theorem of_items : ∀ {d : Datum} {ds : List Datum}, d.items = .ok ds → ∀ x ∈ ds,
    x.size ≤ d.size ∧ (d.isPlain = true → x.isPlain = true)
  | .tuple ds, _, h, x, hx => by
    cases h
    have hle := size_le_sizeAll hx
    exact ⟨by rw [size]; omega, fun hplain => arePlain_iff.mp hplain x hx⟩
  | .list ds, _, h, x, hx => by
    cases h
    have hle := size_le_sizeAll hx
    exact ⟨by rw [size]; omega, fun hplain => arePlain_iff.mp hplain x hx⟩
  | .text s, _, h, x, hx => by
    cases h
    obtain ⟨c, -, rfl⟩ := List.mem_map.mp hx
    exact ⟨le_rfl, fun _ => rfl⟩
  | .expression t, _, h, x, hx => by
    obtain ⟨hle, hplain⟩ := of_items (d := t) h x hx
    exact ⟨by rw [size]; omega, fun ht => hplain (by simpa [isPlain] using ht)⟩
  | .integer _, _, h, _, _ | .real _, _, h, _, _ | .truth _, _, h, _, _ | .absent, _, h, _, _
  | .pvariable .., _, h, _, _ | .cpf .., _, h, _, _ => by cases h

mutual

/-- The bound on the walk is not reached, and nothing else can fail. -/
theorem exists_quotedWithin : ∀ {d : Datum} {n : Nat}, d.isPlain = true → d.size ≤ n →
    ∃ s, quotedWithin n d = .ok s
  | d, 0, _, hn => absurd hn (by have := d.size_pos; omega)
  | .text _, _ + 1, _, _ | .integer _, _ + 1, _, _ | .real _, _ + 1, _, _ | .truth _, _ + 1, _, _
  | .absent, _ + 1, _, _ | .expression _, _ + 1, _, _ => ⟨_, rfl⟩
  | .tuple [], _ + 1, _, _ => ⟨_, rfl⟩
  | .tuple [x], n + 1, h, hn => by
    simp only [isPlain, arePlain, Bool.and_true, size, sizeAll] at h hn
    obtain ⟨s, hs⟩ := exists_quotedWithin (d := x) (n := n) h (by omega)
    simp [quotedWithin, hs, bind, Except.bind]
  | .tuple (x :: y :: ds), n + 1, h, hn => by
    obtain ⟨ss, hss⟩ := exists_mapM_quotedWithin (x :: y :: ds) (n := n) h
      (by simpa [size] using hn)
    simp [quotedWithin, hss, bind, Except.bind]
  | .list ds, n + 1, h, hn => by
    obtain ⟨ss, hss⟩ := exists_mapM_quotedWithin ds (n := n) h (by simpa [size] using hn)
    simp [quotedWithin, hss, bind, Except.bind]

theorem exists_mapM_quotedWithin : ∀ (ds : List Datum) {n : Nat}, arePlain ds = true →
    sizeAll ds ≤ n → ∃ ss, ds.mapM (quotedWithin n) = .ok ss
  | [], _, _, _ => ⟨[], rfl⟩
  | d :: ds, n, h, hn => by
    simp only [arePlain, Bool.and_eq_true, sizeAll] at h hn
    obtain ⟨s, hs⟩ := exists_quotedWithin (d := d) (n := n) h.1 (by omega)
    obtain ⟨ss, hss⟩ := exists_mapM_quotedWithin ds (n := n) h.2 (by omega)
    exact ⟨s :: ss, by simp [List.mapM_cons, hs, hss, bind, Except.bind, pure, Except.pure]⟩

end

theorem exists_displayedWithin {d : Datum} {n : Nat} (h : d.isPlain = true)
    (hshape : ∀ t, d ≠ .expression t) (hn : d.size < n) : ∃ s, displayedWithin n d = .ok s := by
  obtain ⟨k, rfl⟩ : ∃ k, n = k + 1 := ⟨n - 1, by omega⟩
  have hquoted := exists_quotedWithin (n := k) h (by omega)
  cases d with
  | text s => exact ⟨s, rfl⟩
  | expression t => exact absurd rfl (hshape t)
  | pvariable => cases h
  | _ => exact hquoted

/-! ### Listed data -/

/-- A datum is listed exactly if told so, within every bound that is large enough. -/
def Lists (d : Datum) (listed : Bool) : Prop :=
  -- twice the size has room for the kind, which can be larger than the tree it is made from
  ∀ n depth, 2 * d.size < n → ((∃ s, listedWithin n depth d = .ok s) ↔ listed = true)

def ListsAll (ds : List Datum) (listed : Bool) : Prop :=
  ∀ n depth, (∀ d ∈ ds, 2 * d.size < n) →
    ((∀ d ∈ ds, ∃ s, listedWithin n depth d = .ok s) ↔ listed = true)

theorem Lists.text (s : String) : (Datum.text s).Lists true := by
  intro n depth hn
  obtain ⟨k, rfl⟩ : ∃ k, n = k + 1 := ⟨n - 1, by omega⟩
  simp [listedWithin]

theorem Lists.tuple {ds : List Datum} (h : arePlain ds = true) : (Datum.tuple ds).Lists true := by
  intro n depth hn
  obtain ⟨k, rfl⟩ : ∃ k, n = k + 1 := ⟨n - 1, by omega⟩
  obtain ⟨s, hs⟩ := exists_quotedWithin (d := .tuple ds) (n := k) h (by omega)
  simp [listedWithin, hs, bind, Except.bind]

theorem Lists.literal {d : Datum} (h : d.isNumeric = true) : d.Lists false := by
  intro n depth hn
  obtain ⟨k, rfl⟩ : ∃ k, n = k + 1 := ⟨n - 1, by omega⟩
  cases d <;> simp [isNumeric] at h <;> simp [listedWithin]

/-- Brackets are not listed. -/
theorem Lists.group {t : Datum} {listed : Bool} (h : (Datum.expression t).Lists listed) :
    (Datum.expression (.expression t)).Lists listed := by
  intro n depth hn
  have hsame : listedWithin n depth (.expression (.expression t)) =
      listedWithin n depth (.expression t) := by
    cases n <;> rfl
  rw [hsame]
  refine h n depth ?_
  simp only [size] at hn ⊢
  omega

namespace ListsAll

variable {d : Datum} {ds ds' : List Datum} {listed listed' : Bool}

theorem nil : ListsAll [] true := by
  intro n depth _
  simp

theorem cons (h : d.Lists listed) (hs : ListsAll ds listed') :
    ListsAll (d :: ds) (listed && listed') := by
  intro n depth hn
  rw [List.forall_mem_cons] at hn ⊢
  rw [h n depth hn.1, hs n depth hn.2, Bool.and_eq_true]

theorem single (h : d.Lists listed) : ListsAll [d] listed := by
  simpa using cons h nil

/-- What is always listed does not matter. -/
theorem append (h : ∀ d ∈ ds, d.Lists true) (hs : ListsAll ds' listed) :
    ListsAll (ds ++ ds') listed := by
  induction ds with
  | nil => exact hs
  | cons d ds ih =>
    rw [List.forall_mem_cons] at h
    simpa using cons h.1 (ih h.2)

theorem of_forall (h : ∀ d ∈ ds, d.Lists true) : ListsAll ds true := by
  simpa using append h nil

end ListsAll

end Datum

open Datum

/-! ### Trees are plain -/

mutual

theorem Term.isPlain_datum : ∀ t : Term, t.datum.isPlain = true
  | .variable _ | .enumValue _ | .fluent _ => rfl
  | .applied name args => by
    simp [Term.datum, isPlain, arePlain, Term.arePlain_data args]

theorem Term.arePlain_data : ∀ ts : List Term, arePlain (Term.data ts) = true
  | [] => rfl
  | t :: ts => by simp [Term.data, arePlain, t.isPlain_datum, Term.arePlain_data ts]

end

theorem Case.isPlain_datum {c : Case} (h : ∀ e ∈ c.children, e.tree.isPlain = true) :
    c.datum.isPlain = true := by
  cases c <;> simp_all [Case.children, Case.datum, isPlain, arePlain]

theorem Outcome.isPlain_datum {o : Outcome} (h : ∀ e ∈ o.children, e.tree.isPlain = true) :
    o.datum.isPlain = true := by
  cases o <;> simp_all [Outcome.children, Outcome.datum, isPlain, arePlain]

theorem TypedVar.arePlain_data {ds : List Datum} (vars : List TypedVar) (h : arePlain ds = true) :
    arePlain (vars.map TypedVar.datum ++ ds) = true := by
  induction vars with
  | nil => exact h
  | cons v vars ih => exact ih

namespace Expr

theorem isPlain_tree (e : Expr) : e.tree.isPlain = true := by
  induction e using induction_on_children with
  | _ e ih =>
    cases e with
    -- the expressions with lists below them; for all others their children are enough
    | occurrence o =>
      cases hargs : o.args <;>
        simp [tree, Occurrence.tree, hargs, isPlain, arePlain, Term.arePlain_data]
    | call function args =>
      have hargs : arePlain (Expr.data args) = true := by
        simp only [data_eq_map, arePlain_iff, List.forall_mem_map]
        exact ih
      simp [tree, isPlain, arePlain, hargs]
    | quantified quantifier vars body =>
      have hbody : arePlain [.expression body.tree] = true := by
        simp [arePlain, isPlain, ih body (by simp [children])]
      simp [tree, isPlain, arePlain, TypedVar.arePlain_data vars hbody]
    | aggregated operator vars body =>
      have hbody : arePlain [.expression body.tree] = true := by
        simp [arePlain, isPlain, ih body (by simp [children])]
      simp [tree, isPlain, arePlain, TypedVar.arePlain_data vars hbody]
    | switch subject cases =>
      have hcases : arePlain (Case.data cases) = true := by
        simp only [Case.data_eq_map, arePlain_iff, List.forall_mem_map]
        exact fun c hc => Case.isPlain_datum fun e he =>
          ih e (List.mem_cons_of_mem subject (List.mem_flatMap.mpr ⟨c, hc, he⟩))
      simp [tree, isPlain, arePlain, hcases, ih subject (by simp [children])]
    | discrete type outcomes =>
      have houtcomes : arePlain (Outcome.data outcomes) = true := by
        simp only [Outcome.data_eq_map, arePlain_iff, List.forall_mem_map]
        exact fun o ho => Outcome.isPlain_datum fun e he =>
          ih e (List.mem_flatMap.mpr ⟨o, ho, he⟩)
      simp [tree, isPlain, arePlain, houtcomes]
    | _ => simp_all [tree, children, isPlain, arePlain]

/-- The operands of an expression are plain and no larger than its tree. -/
theorem plain_operands (e : Expr) : e.operands.isPlain = true ∧ e.operands.size ≤ e.tree.size := by
  obtain ⟨hsize, hplain⟩ := of_items e.items_tree e.operands (by simp)
  exact ⟨hplain e.isPlain_tree, hsize⟩

theorem plain_operand (e : Expr) (i : Nat) :
    (e.operand i).isPlain = true ∧ (e.operand i).size ≤ e.tree.size := by
  obtain ⟨hplain, hsize⟩ := e.plain_operands
  have habsent : Datum.absent.size ≤ e.tree.size := e.tree.size_pos
  cases hitem : e.operands.item i with
  | error cause =>
    simp only [operand, hitem, Except.toOption, Option.getD_none]
    exact ⟨rfl, habsent⟩
  | ok x =>
    simp only [operand, hitem, Except.toOption, Option.getD_some]
    obtain ⟨items, hitems, hx⟩ := except_bind_eq_ok.mp hitem
    have hmem : x ∈ items := by
      split at hx
      · next heq =>
        cases hx
        exact List.mem_of_getElem? heq
      · cases hx
    obtain ⟨hle, hkeeps⟩ := of_items hitems x hmem
    exact ⟨hkeeps hplain, hle.trans hsize⟩

theorem plain_arguments (e : Expr) :
    e.arguments.isPlain = true ∧ e.arguments.size ≤ e.tree.size := by
  have hsize := e.tree.size_pos
  have hempty : (Datum.list []).isPlain = true ∧ (Datum.list []).size ≤ e.tree.size := ⟨rfl, hsize⟩
  cases hform : e.form <;> simp only [arguments, hform] <;>
    first | exact e.plain_operands | exact e.plain_operand 1 | exact hempty

theorem plain_detail (e : Expr) : e.detail.isPlain = true ∧ e.detail.size ≤ e.tree.size := by
  have htext : ∀ s, (Datum.text s).isPlain = true ∧ (Datum.text s).size ≤ e.tree.size :=
    fun _ => ⟨rfl, e.tree.size_pos⟩
  cases hform : e.form <;> simp only [detail, hform] <;>
    first | exact htext _ | exact e.plain_operands | exact e.plain_operand 0

/-- The text of the kind of an expression. -/
theorem exists_quotedWithin_kind (e : Expr) {n : Nat} (hn : e.tree.size + 2 ≤ n) :
    ∃ s, quotedWithin n (Kind.datum ⟨e.form, e.detail⟩) = .ok s := by
  obtain ⟨hplain, hsize⟩ := e.plain_detail
  refine exists_quotedWithin ?_ ?_
  · simp [Kind.datum, isPlain, arePlain, hplain]
  · simp only [Kind.datum, size, sizeAll]
    omega

/-! ### Listed expressions -/

/-- Whether an expression is a number or a truth value, brackets apart. -/
def isLiteral : Expr → Bool
  | .group _ body => body.isLiteral
  | .truth _ | .integer _ | .real _ => true
  | _ => false

theorem lists_operands (e : Expr) : e.operands.Lists (!e.isLiteral) := by
  have hplain := e.plain_operands.1
  induction e using induction_on_children with
  | _ e ih =>
    cases e with
    | group bracket body => exact ih body (by simp [children]) hplain
    | enumValue name => exact .text name
    | «variable» name => exact .text name
    | truth value => exact .literal rfl
    | integer value => exact .literal rfl
    | real value => exact .literal rfl
    | _ => exact .tuple hplain

end Expr

mutual

def Expr.isListable : Expr → Bool
  | .enumValue _ | .variable _ | .occurrence _ | .truth _ | .integer _ | .real _ => true
  | .group _ body | .unary _ body | .quantified _ _ body => body.isListable
  | .call _ args => Expr.areListable args
  | .binary _ left right => left.isListable && right.isListable
  | .aggregated operator vars body =>
    -- the name of an aggregation is free, and may be the head of another form
    match Form.ofHead operator with
    | .random | .function => vars.length != 1 || !body.isLiteral
    | .constant | .pvariable | .enumValue | .unknown => true
    | _ => body.isListable
  | .conditional condition yes no => condition.isListable && (yes.isListable && no.isListable)
  | .switch subject _ => subject.isListable
  | .random _ parameter | .dirichlet _ parameter => parameter.isListable
  | .randomPair _ first second => first.isListable && second.isListable
  | .discrete .. => true

def Expr.areListable : List Expr → Bool
  | [] => true
  | e :: es => e.isListable && Expr.areListable es

end

theorem TypedVar.lists_datum (v : TypedVar) : v.datum.Lists true := .tuple rfl

theorem Case.lists_datum (c : Case) : c.datum.Lists true := by
  have hplain := c.isPlain_datum fun e _ => e.isPlain_tree
  cases c <;> exact .tuple hplain

theorem Outcome.lists_datum (o : Outcome) : o.datum.Lists true := by
  have hplain := o.isPlain_datum fun e _ => e.isPlain_tree
  cases o <;> exact .tuple hplain

namespace Expr

theorem operands_ne_expression (e : Expr) (t : Datum) : e.operands ≠ .expression t := by
  induction e using induction_on_children with
  | _ e ih =>
    cases e with
    | group bracket body => exact ih body (by simp [children])
    | _ => rintro ⟨⟩

theorem lists_of_isInline {e : Expr} (h : e.IsProper) (hform : e.form.isInline = true) :
    e.datum.Lists true := by
  intro n depth hn
  simp only [datum, size] at hn
  obtain ⟨k, rfl⟩ : ∃ k, n = k + 1 := ⟨n - 1, by omega⟩
  obtain ⟨hplain, hsize⟩ := e.plain_operands
  have harguments : e.arguments = e.operands := by
    cases hkind : e.form <;> simp_all [Form.isInline, arguments]
  obtain ⟨kind, hkind⟩ := e.exists_quotedWithin_kind (n := k) (by omega)
  obtain ⟨text, htext⟩ := exists_displayedWithin (n := k) hplain e.operands_ne_expression (by omega)
  simp [listedWithin, kind_tree h, arguments_tree h, harguments, hform, datum, hkind, htext, bind,
    Except.bind]

/-- An expression is listed if its arguments are. -/
theorem lists_of_items {e : Expr} (h : e.IsProper) (hform : e.form.isInline = false)
    {items : List Datum} {listed : Bool} (hitems : e.arguments.items = .ok items)
    (hlists : ListsAll items listed) : e.datum.Lists listed := by
  intro n depth hn
  simp only [datum, size] at hn
  obtain ⟨k, rfl⟩ : ∃ k, n = k + 1 := ⟨n - 1, by omega⟩
  have hsize := e.plain_arguments.2
  obtain ⟨kind, hkind⟩ := e.exists_quotedWithin_kind (n := k) (by omega)
  rw [← hlists k (depth + 1) fun x hx => by have := (of_items hitems x hx).1; omega,
    ← exists_mapM_eq_ok_iff]
  simp only [listedWithin, kind_tree h, arguments_tree h, hform, hitems, datum, hkind, bind,
    Except.bind]
  cases items.mapM (listedWithin k (depth + 1)) <;> simp

theorem areListable_data {es : List Expr} (h : ∀ e ∈ es, e.datum.Lists e.isListable) :
    ListsAll (Expr.data es) (Expr.areListable es) := by
  induction es with
  | nil => exact .nil
  | cons e es ih =>
    rw [List.forall_mem_cons] at h
    exact .cons h.1 (ih h.2)

/-- Behind an aggregation that is taken for a function or a distribution the second operand
    is listed item by item: another variable, or the body if there is none. -/
theorem lists_second_operand {operator : String} {vars : List TypedVar} {body : Expr}
    (h : (aggregated operator vars body).IsProper)
    (hform : (aggregated operator vars body).form.isInline = false)
    (harguments : (aggregated operator vars body).arguments =
      (aggregated operator vars body).operand 1) :
    (aggregated operator vars body).datum.Lists (vars.length != 1 || !body.isLiteral) := by
  obtain ⟨v, vars, rfl⟩ := List.exists_cons_of_ne_nil (h _ (.self _)).2.1
  cases vars with
  | nil =>
    have hitems : (aggregated operator [v] body).arguments.items =
        .ok [.text body.head, body.operands] := by
      rw [harguments]
      exact body.items_tree
    exact lists_of_items h hform hitems (.cons (.text _) (.single body.lists_operands))
  | cons w vars =>
    refine lists_of_items h hform (by rw [harguments]; rfl) (.cons (.text _) (.single (.tuple rfl)))

/-- What an aggregation is taken for decides which of its parts are listed. -/
theorem lists_aggregated {operator : String} {vars : List TypedVar} {body : Expr}
    (h : (aggregated operator vars body).IsProper) (hbody : body.datum.Lists body.isListable) :
    (aggregated operator vars body).datum.Lists (aggregated operator vars body).isListable := by
  have hform : (aggregated operator vars body).form = Form.ofHead operator := rfl
  have hvars : ∀ d ∈ vars.map TypedVar.datum, d.Lists true :=
    List.forall_mem_map.mpr fun v _ => v.lists_datum
  have hall := ListsAll.append hvars (.single hbody)
  rw [isListable]
  cases hhead : Form.ofHead operator with
  -- taken for a literal or a name, which are shown on one line
  | constant => exact lists_of_isInline h (by rw [hform, hhead]; rfl)
  | pvariable => exact lists_of_isInline h (by rw [hform, hhead]; rfl)
  | enumValue => exact lists_of_isInline h (by rw [hform, hhead]; rfl)
  -- taken for a distribution or a function, of which the second operand is shown
  | random =>
    exact lists_second_operand h (by rw [hform, hhead]; rfl) (by rw [arguments, hform, hhead])
  | function =>
    exact lists_second_operand h (by rw [hform, hhead]; rfl) (by rw [arguments, hform, hhead])
  -- with any other operator nothing is shown below the first line
  | unknown =>
    exact lists_of_items h (by rw [hform, hhead]; rfl) (by rw [arguments, hform, hhead]; rfl) .nil
  | _ =>
    exact lists_of_items h (by rw [hform, hhead]; rfl) (by rw [arguments, hform, hhead]; rfl) hall

theorem lists_datum (e : Expr) (h : e.IsProper) : e.datum.Lists e.isListable := by
  induction e using induction_on_children with
  | _ e ih =>
    have hchild : ∀ c ∈ e.children, c.datum.Lists c.isListable := fun c hc => ih c hc (h.child hc)
    -- an expression is listed exactly if all that stands behind its head is
    cases e with
    -- names and literals are shown on one line
    | enumValue name => exact lists_of_isInline h rfl
    | occurrence o => exact lists_of_isInline h rfl
    | truth value => exact lists_of_isInline h rfl
    | integer value => exact lists_of_isInline h rfl
    | real value => exact lists_of_isInline h rfl
    -- a variable has the characters of its name for arguments
    | «variable» name =>
      refine lists_of_items h rfl rfl (.of_forall ?_)
      exact List.forall_mem_map.mpr fun c _ => .text _
    -- brackets are not shown
    | group bracket body => exact .group (hchild body (by simp [children]))
    -- the arguments are shown below, one by one
    | call function args => exact lists_of_items h rfl rfl (areListable_data hchild)
    | binary op left right =>
      have hleft := hchild left (by simp [children])
      have hright := hchild right (by simp [children])
      cases op <;> exact lists_of_items h rfl rfl (.cons hleft (.single hright))
    | unary op body =>
      have hbody := hchild body (by simp [children])
      cases op <;> exact lists_of_items h rfl rfl (.single hbody)
    | quantified quantifier vars body =>
      have hbody := hchild body (by simp [children])
      -- variables are shown as pairs, which are quoted and not listed
      have hvars : ∀ d ∈ vars.map TypedVar.datum, d.Lists true :=
        List.forall_mem_map.mpr fun v _ => v.lists_datum
      cases quantifier <;> exact lists_of_items h rfl rfl (.append hvars (.single hbody))
    -- the operator of an aggregation may be the head of another form
    | aggregated operator vars body => exact lists_aggregated h (hchild body (by simp [children]))
    | conditional condition yes no =>
      have hcondition := hchild condition (by simp [children])
      have hyes := hchild yes (by simp [children])
      have hno := hchild no (by simp [children])
      exact lists_of_items h rfl rfl (.cons hcondition (.cons hyes (.single hno)))
    | switch subject cases =>
      have hsubject := hchild subject (by simp [children])
      -- so are the cases of a switch
      have hcases : ListsAll (Case.data cases) true := by
        refine .of_forall ?_
        rw [Case.data_eq_map, List.forall_mem_map]
        exact fun c _ => c.lists_datum
      have hall := ListsAll.cons hsubject hcases
      rw [Bool.and_true] at hall
      exact lists_of_items h rfl rfl hall
    | random distribution parameter =>
      exact lists_of_items h rfl rfl (.single (hchild parameter (by simp [children])))
    | randomPair distribution first second =>
      have hfirst := hchild first (by simp [children])
      have hsecond := hchild second (by simp [children])
      exact lists_of_items h rfl rfl (.cons hfirst (.single hsecond))
    | dirichlet type parameter =>
      have hparameter := hchild parameter (by simp [children])
      exact lists_of_items h rfl rfl (.cons (.text type) (.single hparameter))
    | discrete type outcomes =>
      -- and the outcomes of a distribution
      have houtcomes : ListsAll (Outcome.data outcomes) true := by
        refine .of_forall ?_
        rw [Outcome.data_eq_map, List.forall_mem_map]
        exact fun o _ => o.lists_datum
      exact lists_of_items h rfl rfl (.cons (.tuple rfl) houtcomes)

theorem exists_displayed_iff {e : Expr} (h : e.IsProper) :
    (∃ s, e.datum.displayed = .ok s) ↔ e.isListable = true :=
  lists_datum e h (4 * e.datum.size + 3) 0 (by omega)

theorem exists_of_areListable {es : List Expr} (h : Expr.areListable es = false) :
    ∃ e ∈ es, e.isListable = false := by
  induction es with
  | nil => cases h
  | cons e es ih =>
    rw [areListable, Bool.and_eq_false_iff] at h
    rcases h with h | h
    · exact ⟨e, List.mem_cons_self, h⟩
    · obtain ⟨e', he', h⟩ := ih h
      exact ⟨e', List.mem_cons_of_mem e he', h⟩

/-- An aggregation over one variable that is named as the mark of a function or of a
    distribution, with a literal for its body. -/
def isMisleading : Expr → Bool
  | .aggregated operator [_] body => ["func", "randomvar"].contains operator && body.isLiteral
  | _ => false

theorem isMisleading_of_name {operator : String} {vars : List TypedVar} {body : Expr}
    (hname : ["func", "randomvar"].contains operator = true)
    (h : (vars.length != 1 || !body.isLiteral) = false) :
    (aggregated operator vars body).isMisleading = true := by
  simp only [Bool.or_eq_false_iff, bne_eq_false_iff_eq, Bool.not_eq_false'] at h
  obtain ⟨v, rfl⟩ := List.length_eq_one_iff.mp h.1
  rw [isMisleading, hname, h.2]
  rfl

/-- What cannot be listed is misleading itself, or has something directly below that cannot be
    listed. -/
theorem isListable_cases {e : Expr} (h : e.isListable = false) :
    e.isMisleading = true ∨ ∃ c ∈ e.children, c.isListable = false := by
  cases e with
  | call function args => exact .inr (exists_of_areListable h)
  | aggregated operator vars body =>
    rw [isListable] at h
    -- an aggregation is listed by the form that its operator names
    cases hform : Form.ofHead operator <;> simp only [hform] at h
    case random =>
      exact .inl (isMisleading_of_name (Form.of_ofHead _ hform (by decide) (by decide)) h)
    case function =>
      exact .inl (isMisleading_of_name (Form.of_ofHead _ hform (by decide) (by decide)) h)
    all_goals first | cases h | exact .inr ⟨body, by simp [children], h⟩
  | switch subject cases => exact .inr ⟨subject, by simp [children], h⟩
  | binary op left right =>
    rcases Bool.and_eq_false_iff.mp h with h | h
    · exact .inr ⟨left, by simp [children], h⟩
    · exact .inr ⟨right, by simp [children], h⟩
  | randomPair distribution first second =>
    rcases Bool.and_eq_false_iff.mp h with h | h
    · exact .inr ⟨first, by simp [children], h⟩
    · exact .inr ⟨second, by simp [children], h⟩
  | conditional condition yes no =>
    rcases Bool.and_eq_false_iff.mp h with h | h
    · exact .inr ⟨condition, by simp [children], h⟩
    · rcases Bool.and_eq_false_iff.mp h with h | h
      · exact .inr ⟨yes, by simp [children], h⟩
      · exact .inr ⟨no, by simp [children], h⟩
  | _ => simp_all [isListable, children]

theorem exists_isMisleading_of_isListable {e : Expr} (h : e.isListable = false) :
    ∃ p, e.HasPart p ∧ p.isMisleading = true := by
  induction e using induction_on_children with
  | _ e ih =>
    rcases isListable_cases h with hself | ⟨c, hc, hlist⟩
    · exact ⟨e, .self e, hself⟩
    · obtain ⟨p, hp, hmisleads⟩ := ih c hc hlist
      exact ⟨p, .inside hc hp, hmisleads⟩

end Expr

end Rddl
