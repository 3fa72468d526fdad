/-
  Rddl/Proofs/Datum/Grouping.lean
  ===============================
  **Brackets do not matter.**

  Brackets wrap an expression once more.  `Datum.bare` takes all these layers off, at every
  depth, so two data differ in nothing but brackets if they are the same when bare.  Such data
  have items, kinds and arguments that differ in nothing but brackets again, and hence the same
  text and the same scope (`Datum.displayed_bare`, `Datum.scopeOf_bare`).

  The walk that lists a datum has a bound, which depends on the layers.  It is never reached
  (`Datum.walksAgree`), so the text does not depend on it.
-/
import Rddl.Datum.Fields
import Rddl.Proofs.Datum.Equality
import Rddl.Proofs.Reading
import Rddl.Proofs.Syntax.Listing

namespace Rddl

namespace Datum

/-! ### Taking layers off -/

/-- An expression around a tree, or the tree itself if it is one. -/
def wrapped : Datum → Datum
  | .expression t => .expression t
  | t => .expression t

mutual

/-- A datum in which every expression is wrapped just once. -/
@[simp] def bare : Datum → Datum
  | .tuple ds => .tuple (bareAll ds)
  | .list ds => .list (bareAll ds)
  | .expression t => t.bare.wrapped
  | .pvariable name kind range params default level =>
    .pvariable name.bare kind.bare range.bare params.bare default.bare level.bare
  | .cpf target body => .cpf target.bare body.bare
  | .text s => .text s
  | .integer i => .integer i
  | .real x => .real x
  | .truth b => .truth b
  | .absent => .absent

@[simp] def bareAll : List Datum → List Datum
  | [] => []
  | d :: ds => d.bare :: bareAll ds

end

theorem bareAll_eq_map (ds : List Datum) : bareAll ds = ds.map bare := by
  induction ds with
  | nil => rfl
  | cons d ds ih => rw [bareAll, ih, List.map_cons]

theorem wrapped_tuple (ds : List Datum) : (tuple ds).wrapped = .expression (.tuple ds) := rfl

theorem exists_wrapped (t : Datum) : ∃ u, t.wrapped = .expression u := by
  cases t <;> exact ⟨_, rfl⟩

theorem bare_layer (t : Datum) : (expression (expression t)).bare = (expression t).bare := by
  obtain ⟨u, hu⟩ := exists_wrapped t.bare
  rw [bare, bare, hu]
  rfl

/-- What one more layer leaves as it is, any number of layers does. -/
theorem eq_of_layers {α : Type} (f : Datum → α)
    (h : ∀ t, f (.expression (.expression t)) = f (.expression t)) (v : Datum) (layers : Nat) :
    f (Datum.expression^[layers] (.expression v)) = f (.expression v) := by
  induction layers generalizing v with
  | zero => rfl
  | succ layers ih => rw [Function.iterate_succ_apply, ih, h]

/-! ### Items, kinds and arguments -/

theorem items_wrapped (t : Datum) : t.wrapped.items = t.items := by
  cases t <;> rfl

theorem items_bare : ∀ t : Datum, t.bare.items = List.map bare <$> t.items
  | .tuple ds | .list ds => by simp [items, bareAll_eq_map]
  | .text s => by simp [items, Function.comp_def]
  | .expression t => by rw [bare, items_wrapped, items_bare t, items]
  | .integer _ | .real _ | .truth _ | .absent | .pvariable .. | .cpf .. => rfl

theorem item_bare (t : Datum) (i : Nat) : t.bare.item i = bare <$> t.item i := by
  rw [item, item, items_bare, bind_map_left, map_bind]
  refine bind_congr fun ds => ?_
  rw [List.getElem?_map]
  cases ds[i]? <;> rfl

/-- A bare expression is an expression still. -/
theorem exists_bare_expression (t : Datum) : ∃ u, (expression t).bare = .expression u :=
  exists_wrapped t.bare

theorem classTag_bare (d : Datum) : d.bare.classTag = d.classTag := by
  cases d with
  | expression t =>
    obtain ⟨u, hu⟩ := exists_bare_expression t
    rw [hu]
    rfl
  | _ => rfl

theorem form_bare (t : Datum) : t.bare.form = t.form := by
  rw [form, form, item_bare, bind_map_left]
  refine bind_congr fun head => ?_
  cases head with
  | expression t =>
    obtain ⟨u, hu⟩ := exists_bare_expression t
    rw [hu]
  | _ => rfl

theorem kind_bare (t : Datum) :
    t.bare.kind = (fun k => ⟨k.form, k.detail.bare⟩) <$> t.kind := by
  rw [kind, kind, form_bare, map_bind]
  refine bind_congr fun form => ?_
  cases form <;> simp [item_bare, classTag_bare, map_bind] <;> rfl

theorem arguments_bare (t : Datum) : t.bare.arguments = bare <$> t.arguments := by
  rw [arguments, arguments, form_bare, map_bind]
  refine bind_congr fun form => ?_
  cases form <;> simp [item_bare, map_bind]

theorem length_bare (d : Datum) : d.bare.length = d.length := by
  cases d with
  | tuple ds => simp [length, bareAll_eq_map]
  | list ds => simp [length, bareAll_eq_map]
  | expression t =>
    obtain ⟨u, hu⟩ := exists_bare_expression t
    rw [hu]
    rfl
  | _ => rfl

theorem arity_bare (d : Datum) : d.bare.arity = d.arity := by
  have habsent : d.bare.isAbsent = d.isAbsent := by
    cases d with
    | expression t =>
      obtain ⟨u, hu⟩ := exists_bare_expression t
      rw [hu]
      rfl
    | _ => rfl
  rw [arity, arity, habsent, length_bare]

theorem except_bind_congr {α β : Type} {x : Except Fault α} {f g : α → Except Fault β}
    (h : ∀ a, x = .ok a → f a = g a) : x >>= f = x >>= g := by
  cases x with
  | error cause => rfl
  | ok a => exact h a rfl

/-- Two ways through a list agree if they agree on its items. -/
theorem mapM_bareAll {β : Type} {f g : Datum → Except Fault β} {ds : List Datum}
    (h : ∀ d ∈ ds, f d.bare = g d) : (bareAll ds).mapM f = ds.mapM g := by
  induction ds with
  | nil => rfl
  | cons d ds ih =>
    rw [List.forall_mem_cons] at h
    rw [bareAll, List.mapM_cons, List.mapM_cons, h.1, ih h.2]

theorem joined_bare (d : Datum) (separator : String) :
    d.bare.joined separator = d.joined separator := by
  rw [joined, joined, items_bare, bind_map_left]
  refine bind_congr fun ds => ?_
  rw [← bareAll_eq_map]
  refine congrArg (· >>= _) (mapM_bareAll fun x _ => ?_)
  cases x with
  | expression t =>
    obtain ⟨u, hu⟩ := exists_bare_expression t
    rw [hu]
  | _ => rfl

theorem pair_bare (d : Datum) : d.bare.pair = Prod.map bare bare <$> d.pair := by
  rw [pair, pair, items_bare, bind_map_left, map_bind]
  refine bind_congr fun ds => ?_
  rcases ds with _ | ⟨x, _ | ⟨y, _ | ⟨z, ds⟩⟩⟩ <;> rfl

/-! ### Sizes -/

theorem size_item {t x : Datum} {i : Nat} (h : t.item i = .ok x) : x.size ≤ t.size := by
  obtain ⟨ds, hitems, hx⟩ := except_bind_eq_ok.mp h
  split at hx
  · next heq =>
    cases hx
    exact (of_items hitems x (List.mem_of_getElem? heq)).1
  · cases hx

theorem size_detail {t : Datum} {k : Kind} (h : t.kind = .ok k) : k.detail.size ≤ t.size := by
  obtain ⟨form, -, h⟩ := except_bind_eq_ok.mp h
  cases form with
  | constant =>
    obtain ⟨x, -, h⟩ := except_bind_eq_ok.mp h
    cases h
    exact t.size_pos
  | pvariable | enumValue | random | function =>
    obtain ⟨x, hx, h⟩ := except_bind_eq_ok.mp h
    obtain ⟨y, hy, h⟩ := except_bind_eq_ok.mp h
    cases h
    exact (size_item hy).trans (size_item hx)
  | «variable» | arithmetic | boolean | relational =>
    obtain ⟨x, hx, h⟩ := except_bind_eq_ok.mp h
    cases h
    exact size_item hx
  | aggregation operator | control construct | unknown =>
    cases h
    exact t.size_pos

theorem size_arguments {t d : Datum} (h : t.arguments = .ok d) : d.size ≤ t.size := by
  obtain ⟨form, -, h⟩ := except_bind_eq_ok.mp h
  cases form with
  | random | function =>
    obtain ⟨x, hx, hd⟩ := except_bind_eq_ok.mp h
    exact (size_item hd).trans (size_item hx)
  | unknown =>
    cases h
    exact t.size_pos
  | _ => exact size_item h

/-! ### Texts -/

theorem listedWithin_wrapped (n depth : Nat) (t : Datum) :
    listedWithin n depth t.wrapped = listedWithin n depth (.expression t) := by
  cases t with
  | expression t => cases n <;> rfl
  | _ => rfl

/-- Data and bare data have the same text, within any two bounds that are large enough. -/
structure WalksAgree (n : Nat) : Prop where
  quoted : ∀ {m : Nat} (d : Datum), 3 * d.size ≤ n + 2 → 3 * d.size ≤ m + 2 →
    quotedWithin n d.bare = quotedWithin m d
  displayed : ∀ {m : Nat} (d : Datum), 3 * d.size ≤ n → 3 * d.size ≤ m →
    displayedWithin n d.bare = displayedWithin m d
  listed : ∀ {m : Nat} (depth : Nat) (d : Datum), 3 * d.size ≤ n + 1 → 3 * d.size ≤ m + 1 →
    listedWithin n depth d.bare = listedWithin m depth d

namespace WalksAgree

variable {n m : Nat} (h : WalksAgree n)
include h

theorem quotedAll (ds : List Datum) (hn : 3 * sizeAll ds ≤ n + 2) (hm : 3 * sizeAll ds ≤ m + 2) :
    (bareAll ds).mapM (quotedWithin n) = ds.mapM (quotedWithin m) := by
  refine mapM_bareAll fun d hd => ?_
  have hle := size_le_sizeAll hd
  exact h.quoted d (by omega) (by omega)

theorem quoted_succ (d : Datum) (hn : 3 * d.size ≤ n + 3) (hm : 3 * d.size ≤ m + 3) :
    quotedWithin (n + 1) d.bare = quotedWithin (m + 1) d := by
  cases d with
  | tuple ds =>
    rw [size] at hn hm
    have hall := h.quotedAll (m := m) ds (by omega) (by omega)
    -- a tuple with one item has a comma of its own, so it is a case for itself
    rcases ds with _ | ⟨x, _ | ⟨y, ds⟩⟩
    · rfl
    · rw [sizeAll, sizeAll] at hn hm
      simp only [bare, bareAll, quotedWithin, h.quoted (m := m) x (by omega) (by omega)]
    · simp only [bare, bareAll, quotedWithin] at hall ⊢
      rw [hall]
  | list ds =>
    rw [size] at hn hm
    simp only [bare, quotedWithin, h.quotedAll (m := m) ds (by omega) (by omega)]
  | expression t =>
    obtain ⟨u, hu⟩ := exists_bare_expression t
    rw [hu]
    rfl
  | pvariable name kind range params default level =>
    rw [size] at hn hm
    have hname := h.displayed (m := m) name (by omega) (by omega)
    simp only [bare, quotedWithin, arity_bare, joined_bare, hname]
    refine bind_congr fun count => ?_
    -- only a text is shown as a name, and an expression is none with fewer layers, either
    cases name with
    | expression t =>
      obtain ⟨u, hu⟩ := exists_bare_expression t
      rw [hu]
    | _ => rfl
  | cpf target body =>
    have htargetPos := target.size_pos
    have hbodyPos := body.size_pos
    rw [size] at hn hm
    simp only [bare, quotedWithin, h.displayed (m := m) target (by omega) (by omega),
      h.displayed (m := m) body (by omega) (by omega)]
  | _ => rfl

theorem displayed_succ (d : Datum) (hn : 3 * d.size ≤ n + 1) (hm : 3 * d.size ≤ m + 1) :
    displayedWithin (n + 1) d.bare = displayedWithin (m + 1) d := by
  have hquoted := h.quoted (m := m) d (by omega) (by omega)
  cases d with
  | text s => rfl
  | expression t =>
    have hlisted := h.listed (m := m) 0 (.expression t) hn hm
    obtain ⟨u, hu⟩ := exists_bare_expression t
    rw [hu] at hlisted ⊢
    exact hlisted
  | pvariable name kind range params default level =>
    rw [size] at hn hm
    simp only [bare, displayedWithin, arity_bare, h.displayed (m := m) name (by omega) (by omega)]
  | _ => exact hquoted

/-- The text of a kind, which has its detail one step further down. -/
theorem quoted_kind {k : Kind} (hn : 3 * k.detail.size ≤ n) (hm : 3 * k.detail.size ≤ m) :
    quotedWithin (n + 1) (Kind.datum ⟨k.form, k.detail.bare⟩) = quotedWithin (m + 1) k.datum := by
  have hpos := k.detail.size_pos
  have hcategory := h.quoted (m := m) (.text k.form.category) (by simp [size]; omega)
    (by simp [size]; omega)
  have hdetail := h.quoted (m := m) k.detail (by omega) (by omega)
  rw [bare] at hcategory
  simp only [Kind.datum, quotedWithin, List.mapM_cons, List.mapM_nil, hcategory, hdetail]

end WalksAgree

/-- One step further down two walks agree on an expression if they did before. -/
theorem WalksAgree.listed_succ {n m : Nat} (h : WalksAgree n) (h' : WalksAgree (n + 1))
    (depth : Nat) (d : Datum) (hn : 3 * d.size ≤ n + 3) (hm : 3 * d.size ≤ m + 3) :
    listedWithin (n + 2) depth d.bare = listedWithin (m + 2) depth d := by
  cases d with
  | text s => rfl
  | tuple ds =>
    have hquoted := h'.quoted (m := m + 1) (.tuple ds) hn hm
    rw [bare] at hquoted ⊢
    simp only [listedWithin, hquoted]
  | expression t =>
    rw [size] at hn hm
    rw [bare, listedWithin_wrapped, listedWithin, listedWithin]
    simp only [kind_bare, arguments_bare, bind_map_left]
    refine except_bind_congr fun k hk => ?_
    refine except_bind_congr fun arguments harguments => ?_
    -- kind and arguments are parts of the tree, so their walks have steps enough
    have hdetailSize := size_detail hk
    have hargumentsSize := size_arguments harguments
    have hkind := h.quoted_kind (m := m) (k := k) (by omega) (by omega)
    have hinline := h'.displayed (m := m + 1) arguments (by omega) (by omega)
    rw [hkind, hinline, items_bare, bind_map_left]
    split
    · rfl
    · refine except_bind_congr fun ds hds => ?_
      have hlines : (bareAll ds).mapM (listedWithin (n + 1) (depth + 1)) =
          ds.mapM (listedWithin (m + 1) (depth + 1)) := by
        refine mapM_bareAll fun x hx => ?_
        have hle := (of_items hds x hx).1
        exact h'.listed (depth + 1) x (by omega) (by omega)
      rw [← bareAll_eq_map, hlines]
  | _ => rfl

theorem walksAgree (n : Nat) : WalksAgree n := by
  induction n using Nat.strong_induction_on with
  | _ n ih =>
    -- a datum has a node, so a bound that is large enough is large enough for a step
    have hpos : ∀ d : Datum, 0 < d.size := size_pos
    cases n with
    | zero =>
      refine ⟨fun d hn _ => ?_, fun d hn _ => ?_, fun depth d hn _ => ?_⟩ <;>
        exact absurd hn (by have := hpos d; omega)
    | succ n =>
      have h := ih n (by omega)
      refine ⟨fun {m} d hn hm => ?_, fun {m} d hn hm => ?_, fun {m} depth d hn hm => ?_⟩
      all_goals have hd := hpos d
      · obtain ⟨k, rfl⟩ : ∃ k, m = k + 1 := ⟨m - 1, by omega⟩
        exact h.quoted_succ d hn hm
      · obtain ⟨k, rfl⟩ : ∃ k, m = k + 1 := ⟨m - 1, by omega⟩
        exact h.displayed_succ d hn hm
      · obtain ⟨k, rfl⟩ : ∃ k, m = k + 2 := ⟨m - 2, by omega⟩
        obtain ⟨j, rfl⟩ : ∃ j, n = j + 1 := ⟨n - 1, by omega⟩
        exact (ih j (by omega)).listed_succ h depth d hn hm

/-! ### Bare data -/

theorem bare_wrapped {t : Datum} (h : t.bare = t) : t.wrapped.bare = t.wrapped := by
  cases t with
  | expression t => exact h
  | _ => exact congrArg wrapped h

theorem size_wrapped (t : Datum) : t.wrapped.size ≤ t.size + 1 := by
  cases t with
  | expression t => rw [wrapped]; omega
  | _ => exact Nat.le_refl _

mutual

theorem bare_bare : ∀ d : Datum, d.bare.bare = d.bare
  | .tuple ds | .list ds => by simp only [bare, bareAll_bareAll ds]
  | .expression t => by
    rw [bare]
    exact bare_wrapped (bare_bare t)
  | .pvariable name kind range params default level => by
    simp only [bare, bare_bare name, bare_bare kind, bare_bare range, bare_bare params,
      bare_bare default, bare_bare level]
  | .cpf target body => by simp only [bare, bare_bare target, bare_bare body]
  | .text _ | .integer _ | .real _ | .truth _ | .absent => rfl

theorem bareAll_bareAll : ∀ ds : List Datum, bareAll (bareAll ds) = bareAll ds
  | [] => rfl
  | d :: ds => by simp only [bareAll, bare_bare d, bareAll_bareAll ds]

end

mutual

theorem size_bare : ∀ d : Datum, d.bare.size ≤ d.size
  | .tuple ds | .list ds => by
    have hds := sizeAll_bareAll ds
    simpa only [bare, size, Nat.add_le_add_iff_right] using hds
  | .expression t => by
    have ht := size_bare t
    -- at most one layer is put around, in the place of the one that was there
    have hwrapped := size_wrapped t.bare
    rw [bare, size]
    omega
  | .pvariable name kind range params default level => by
    have hname := size_bare name
    have hkind := size_bare kind
    have hrange := size_bare range
    have hparams := size_bare params
    have hdefault := size_bare default
    have hlevel := size_bare level
    simp only [bare, size]
    omega
  | .cpf target body => by
    have htarget := size_bare target
    have hbody := size_bare body
    simp only [bare, size]
    omega
  | .text _ | .integer _ | .real _ | .truth _ | .absent => Nat.le_refl _

theorem sizeAll_bareAll : ∀ ds : List Datum, sizeAll (bareAll ds) ≤ sizeAll ds
  | [] => Nat.le_refl _
  | d :: ds => by
    have hd := size_bare d
    have hds := sizeAll_bareAll ds
    simp only [bareAll, sizeAll]
    omega

end

/-- **Brackets leave the text of a datum as it is.** -/
theorem displayed_bare (d : Datum) : d.bare.displayed = d.displayed := by
  have hsize := size_bare d
  have hbound := (walksAgree d.walkBound).displayed (m := d.bare.walkBound) d.bare
    (by rw [walkBound]; omega) (by rw [walkBound]; omega)
  rw [bare_bare] at hbound
  rw [displayed, ← hbound]
  exact (walksAgree d.walkBound).displayed d (by rw [walkBound]; omega) (by rw [walkBound]; omega)

/-! ### Scopes -/

theorem fluentName_bare (functor params : Datum) :
    fluentName functor.bare params.bare = fluentName functor params := by
  rw [fluentName, fluentName, arity_bare, displayed_bare]

theorem occurrences_wrapped (t : Datum) : t.wrapped.occurrences = t.occurrences := by
  cases t <;> rfl

theorem occurrencesAll_wrapped (t : Datum) (ds : List Datum) :
    occurrencesAll (t.wrapped :: ds) = occurrencesAll (.expression t :: ds) := by
  cases t <;> rfl

mutual

theorem occurrences_bare : ∀ d : Datum, d.bare.occurrences = d.occurrences
  | .tuple ds | .list ds => occurrencesAll_bare ds
  | .expression t => by rw [bare, occurrences_wrapped, occurrences_bare t, occurrences]
  | .text _ | .integer _ | .real _ | .truth _ | .absent | .pvariable .. | .cpf .. => rfl

theorem occurrencesAll_bare : ∀ ds : List Datum, occurrencesAll (bareAll ds) = occurrencesAll ds
  | [] => rfl
  | .tuple xs :: ds | .list xs :: ds => by
    simp only [bareAll, bare, occurrencesAll, occurrencesAll_bare xs, occurrencesAll_bare ds]
  | .expression t :: ds => by
    rw [bareAll, bare, occurrencesAll_wrapped]
    simp only [occurrencesAll, occurrences_bare t, occurrencesAll_bare ds]
  | .text s :: ds => by
    by_cases hs : s = "pvar_expr"
    · cases ds with
      | nil => rfl
      | cons next ds =>
        simp only [bareAll, bare, occurrencesAll, if_pos hs, pair_bare, bind_map_left, Prod.map,
          fluentName_bare]
    · simp only [bareAll, bare, occurrencesAll, if_neg hs, occurrencesAll_bare ds]
  | .integer _ :: ds | .real _ :: ds | .truth _ :: ds | .absent :: ds | .pvariable .. :: ds
  | .cpf .. :: ds => occurrencesAll_bare ds

end

theorem scopeOf_wrapped (t : Datum) : t.wrapped.scopeOf = (expression t).scopeOf := by
  cases t <;> rfl

/-- **Brackets leave the scope of an expression as it is.** -/
theorem scopeOf_bare (d : Datum) : d.bare.scopeOf = d.scopeOf := by
  cases d with
  | expression t =>
    rw [bare, scopeOf_wrapped]
    exact congrArg (fun names => do .ok (sortNames (← names)).eraseDups) (occurrences_bare t)
  | _ => rfl

theorem displayed_eq_of_bare {d d' : Datum} (h : d.bare = d'.bare) :
    d.displayed = d'.displayed := by
  rw [← displayed_bare d, h, displayed_bare]

theorem scopeOf_eq_of_bare {d d' : Datum} (h : d.bare = d'.bare) : d.scopeOf = d'.scopeOf := by
  rw [← scopeOf_bare d, h, scopeOf_bare]

end Datum

/-! ### Brackets of the syntax -/

mutual

def Expr.ungrouped : Expr → Expr
  | .group _ body => body.ungrouped
  | .call function args => .call function (Expr.ungroupedAll args)
  | .binary op left right => .binary op left.ungrouped right.ungrouped
  | .unary op body => .unary op body.ungrouped
  | .quantified quantifier vars body => .quantified quantifier vars body.ungrouped
  | .aggregated operator vars body => .aggregated operator vars body.ungrouped
  | .conditional condition yes no => .conditional condition.ungrouped yes.ungrouped no.ungrouped
  | .switch subject cases => .switch subject.ungrouped (Case.ungroupedAll cases)
  | .random distribution parameter => .random distribution parameter.ungrouped
  | .randomPair distribution first second =>
    .randomPair distribution first.ungrouped second.ungrouped
  | .dirichlet type parameter => .dirichlet type parameter.ungrouped
  | .discrete type outcomes => .discrete type (Outcome.ungroupedAll outcomes)
  | .enumValue name => .enumValue name
  | .variable name => .variable name
  | .occurrence fluent => .occurrence fluent
  | .truth value => .truth value
  | .integer value => .integer value
  | .real value => .real value

def Expr.ungroupedAll : List Expr → List Expr
  | [] => []
  | e :: es => e.ungrouped :: Expr.ungroupedAll es

def Case.ungrouped : Case → Case
  | .value guard body => .value guard.ungrouped body.ungrouped
  | .default body => .default body.ungrouped

def Case.ungroupedAll : List Case → List Case
  | [] => []
  | c :: cs => c.ungrouped :: Case.ungroupedAll cs

def Outcome.ungrouped : Outcome → Outcome
  | .weighted label weight => .weighted label weight.ungrouped
  | .otherwise label => .otherwise label

def Outcome.ungroupedAll : List Outcome → List Outcome
  | [] => []
  | o :: os => o.ungrouped :: Outcome.ungroupedAll os

end

open Datum

mutual

theorem Term.bare_datum : ∀ t : Term, t.datum.bare = t.datum
  | .variable _ | .enumValue _ | .fluent _ => rfl
  | .applied name args => by simp [Term.datum, Term.bareAll_data args, wrapped]

theorem Term.bareAll_data : ∀ ts : List Term, bareAll (Term.data ts) = Term.data ts
  | [] => rfl
  | t :: ts => by rw [Term.data, bareAll, t.bare_datum, Term.bareAll_data ts]

end

theorem TypedVar.bareAll_data (vars : List TypedVar) (ds : List Datum) :
    bareAll (vars.map TypedVar.datum ++ ds) = vars.map TypedVar.datum ++ bareAll ds := by
  induction vars with
  | nil => rfl
  | cons v vars ih => rw [List.map_cons, List.cons_append, bareAll, ih]; rfl

theorem Occurrence.bare_tree (o : Occurrence) : o.tree.bare = o.tree := by
  cases hargs : o.args with
  | none => simp [Occurrence.tree, hargs]
  | some args => simp [Occurrence.tree, hargs, Term.bareAll_data]

mutual

/-- The bare tree of an expression is that of the expression without brackets. -/
theorem Expr.bare_tree : ∀ e : Expr, e.tree.bare.wrapped = .expression e.ungrouped.tree
  | .enumValue _ | .variable _ | .truth _ | .integer _ | .real _ => rfl
  | .occurrence fluent => by
    rw [Expr.tree, fluent.bare_tree, Expr.ungrouped, Expr.tree]
    rfl
  -- brackets wrap the tree once more, which the bare datum does not
  | .group _ body => by
    rw [Expr.tree, bare, body.bare_tree]
    rfl
  | .call function args => by
    simp only [Expr.tree, bare, bareAll, Expr.ungrouped, wrapped_tuple, Expr.bareAll_data args]
  | .binary op left right => by
    simp only [Expr.tree, bare, bareAll, Expr.ungrouped, wrapped_tuple, left.bare_tree,
      right.bare_tree]
  | .unary op body => by
    simp only [Expr.tree, bare, bareAll, Expr.ungrouped, wrapped_tuple, body.bare_tree]
  | .quantified quantifier vars body => by
    simp only [Expr.tree, bare, bareAll, Expr.ungrouped, wrapped_tuple, TypedVar.bareAll_data,
      body.bare_tree]
  | .aggregated operator vars body => by
    simp only [Expr.tree, bare, bareAll, Expr.ungrouped, wrapped_tuple, TypedVar.bareAll_data,
      body.bare_tree]
  | .conditional condition yes no => by
    simp only [Expr.tree, bare, bareAll, Expr.ungrouped, wrapped_tuple, condition.bare_tree,
      yes.bare_tree, no.bare_tree]
  | .switch subject cases => by
    simp only [Expr.tree, bare, bareAll, Expr.ungrouped, wrapped_tuple, subject.bare_tree,
      Case.bareAll_data cases]
  | .random distribution parameter => by
    simp only [Expr.tree, bare, bareAll, Expr.ungrouped, wrapped_tuple, parameter.bare_tree]
  | .randomPair distribution first second => by
    simp only [Expr.tree, bare, bareAll, Expr.ungrouped, wrapped_tuple, first.bare_tree,
      second.bare_tree]
  | .dirichlet type parameter => by
    simp only [Expr.tree, bare, bareAll, Expr.ungrouped, wrapped_tuple, parameter.bare_tree]
  | .discrete type outcomes => by
    simp only [Expr.tree, bare, bareAll, Expr.ungrouped, wrapped_tuple,
      Outcome.bareAll_data outcomes]

theorem Expr.bareAll_data : ∀ es : List Expr,
    bareAll (Expr.data es) = Expr.data (Expr.ungroupedAll es)
  | [] => rfl
  | e :: es => by
    simp only [Expr.data, bareAll, bare, Expr.ungroupedAll, e.bare_tree, Expr.bareAll_data es]

theorem Case.bare_datum : ∀ c : Case, c.datum.bare = c.ungrouped.datum
  | .value guard body => by
    simp only [Case.datum, bare, bareAll, Case.ungrouped, guard.bare_tree, body.bare_tree]
  | .default body => by simp only [Case.datum, bare, bareAll, Case.ungrouped, body.bare_tree]

theorem Case.bareAll_data : ∀ cs : List Case,
    bareAll (Case.data cs) = Case.data (Case.ungroupedAll cs)
  | [] => rfl
  | c :: cs => by
    simp only [Case.data, bareAll, Case.ungroupedAll, c.bare_datum, Case.bareAll_data cs]

theorem Outcome.bare_datum : ∀ o : Outcome, o.datum.bare = o.ungrouped.datum
  | .weighted label weight => by
    simp only [Outcome.datum, bare, bareAll, Outcome.ungrouped, weight.bare_tree]
  | .otherwise label => rfl

theorem Outcome.bareAll_data : ∀ os : List Outcome,
    bareAll (Outcome.data os) = Outcome.data (Outcome.ungroupedAll os)
  | [] => rfl
  | o :: os => by
    simp only [Outcome.data, bareAll, Outcome.ungroupedAll, o.bare_datum, Outcome.bareAll_data os]

end

/-- The same comes of all that is asked of two data, failures included. -/
structure Datum.SameFields (d d' : Datum) : Prop where
  kind : d.kindOf = d'.kindOf
  arguments : d.argumentsOf = d'.argumentsOf
  constant : d.isConstantOf = d'.isConstantOf
  «pvariable» : d.isPVariableOf = d'.isPVariableOf
  name : d.nameOf = d'.nameOf
  value : d.valueOf = d'.valueOf
  scope : d.scopeOf = d'.scopeOf
  text : d.displayed = d'.displayed

/-- **Brackets are transparent.**  Any number of layers around an expression, whatever it
    holds, changes nothing that is asked of it.  Data that differ in nothing but layers, around
    any expressions in them and at any depth, have the same scope and the same text; and
    expressions that differ in nothing but brackets are such data. -/
theorem Datum.brackets_transparent :
    (∀ (v : Datum) (layers : Nat),
      (Datum.expression^[layers] (.expression v)).SameFields (.expression v)) ∧
    (∀ d d' : Datum, d.bare = d'.bare → d.scopeOf = d'.scopeOf ∧ d.displayed = d'.displayed) ∧
    ∀ e e' : Expr, e.ungrouped = e'.ungrouped → e.datum.bare = e'.datum.bare := by
  refine ⟨fun v layers => ?_, fun d d' h => ?_, fun e e' h => ?_⟩
  · constructor
    · exact eq_of_layers kindOf (fun _ => rfl) v layers
    · exact eq_of_layers argumentsOf (fun _ => rfl) v layers
    · exact eq_of_layers isConstantOf (fun _ => rfl) v layers
    · exact eq_of_layers isPVariableOf (fun _ => rfl) v layers
    · exact eq_of_layers nameOf (fun _ => rfl) v layers
    · exact eq_of_layers valueOf (fun _ => rfl) v layers
    · exact eq_of_layers scopeOf (fun _ => rfl) v layers
    · exact eq_of_layers displayed (fun t => displayed_eq_of_bare (bare_layer t)) v layers
  · exact ⟨scopeOf_eq_of_bare h, displayed_eq_of_bare h⟩
  · exact (e.bare_tree.trans (by rw [h])).trans e'.bare_tree.symm

def bracketedReward : Expr :=
  .group .round (.binary .plus (.group .round (.occurrence ⟨"p", some [.fluent "q"]⟩))
    (.group .square (.aggregated "func" [⟨"?x", "o"⟩]
      (.group .round (.occurrence ⟨"r", some [.variable "?x"]⟩)))))

def bracketedText : String := "domain d \x7b
  pvariables \x7b \x7d;
  cpfs \x7b \x7d;
  reward = ((p(q)) + [func_\x7b?x : o\x7d (r(?x))]);
\x7d
non-fluents n \x7b \x7d
instance i \x7b \x7d"

def unbracketedText : String := "domain d \x7b
  pvariables \x7b \x7d;
  cpfs \x7b \x7d;
  reward = p(q) + func_\x7b?x : o\x7d r(?x);
\x7d
non-fluents n \x7b \x7d
instance i \x7b \x7d"

/-- Two texts that differ in brackets give rewards with the same scope and the same text. -/
theorem Datum.brackets_of_bracketedText :
    ∃ m m', (Reading.ofText 1 bracketedText).verdict = .model m ∧
      (Reading.ofText 1 unbracketedText).verdict = .model m' ∧
      m.domain.reward ≠ m'.domain.reward ∧
      m.domain.reward.scopeOf = m'.domain.reward.scopeOf ∧
      m.domain.reward.displayed = m'.domain.reward.displayed := by
  have hread : ((Reading.ofText 1 bracketedText).verdict.model?.map fun m => m.domain.reward) =
      some bracketedReward.datum := by
    rw [bracketedText, Reading.ofText_eq_ofScan 1 rfl]
    decide +kernel
  have hread' : ((Reading.ofText 1 unbracketedText).verdict.model?.map fun m => m.domain.reward) =
      some bracketedReward.ungrouped.datum := by
    rw [unbracketedText, Reading.ofText_eq_ofScan 1 rfl]
    decide +kernel
  obtain ⟨m, hmodel, hreward⟩ := Option.map_eq_some_iff.mp hread
  obtain ⟨m', hmodel', hreward'⟩ := Option.map_eq_some_iff.mp hread'
  -- without brackets both are one expression
  have hbare := brackets_transparent.2.2 bracketedReward bracketedReward.ungrouped rfl
  refine ⟨m, m', Verdict.eq_model_of_model? hmodel, Verdict.eq_model_of_model? hmodel', ?_, ?_⟩
  · rw [hreward, hreward']
    decide +kernel
  · rw [hreward, hreward']
    exact brackets_transparent.2.1 _ _ hbare

end Rddl
