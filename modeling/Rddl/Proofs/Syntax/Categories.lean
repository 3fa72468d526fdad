/-
  Rddl/Proofs/Syntax/Categories.lean
  ==================================
  **Categories of expressions.**

  An expression is built by a production of the grammar, and the kind of its tree is told by
  the head of the tree.  The two agree for every form of expression but one: the head of an
  aggregation is its operator, which may be any name, and some names are the heads of
  other expressions.  `Expr.production` is the category of the production,
  `Expr.aggregator?` the operator of an aggregation, and `headCategory` what a name tells
  as a head.  The main statement is `Model.category_of_mem_nodes`.
-/
import Rddl.Proofs.Datum.Equality
import Rddl.Proofs.Syntax.Heads

namespace Rddl

/-! ### Productions -/

namespace Expr

/-- The category of the production that builds an expression, brackets apart. -/
def production : Expr → String
  | .group _ body => body.production
  | .truth _ | .integer _ | .real _ => "constant"
  | .occurrence _ => "pvar"
  | .enumValue _ => "penum"
  | .variable _ => "param"
  | .random .. | .randomPair .. | .dirichlet .. | .discrete .. => "randomvar"
  | .call .. => "func"
  | .binary op _ _ => op.form.category
  | .unary op _ => op.form.category
  | .quantified .. | .aggregated .. => "aggregation"
  | .conditional .. | .switch .. => "control"

/-- The operator of an expression that is an aggregation, brackets apart. -/
def aggregator? : Expr → Option String
  | .group _ body => body.aggregator?
  | .aggregated operator _ _ => some operator
  | _ => none

end Expr

/-! ### Names as heads -/

def aggregators : List String := ["sum", "prod", "avg", "max", "min"]

/-- The names that tell a category when they are the head of a tree. -/
def headCategories : List (String × String) :=
  aggregators.map (·, "aggregation") ++
    [("number", "constant"), ("boolean", "constant"), ("pvar_expr", "pvar"),
      ("penum_expr", "penum"), ("param_expr", "param"), ("randomvar", "randomvar"),
      ("func", "func")]

/-- The category that a name tells as the head of a tree. -/
def headCategory (name : String) : String := (headCategories.lookup name).getD "UNKOWN"

theorem headCategory_of_notMem {name : String} (h : name ∉ headCategories.map Prod.fst) :
    headCategory name = "UNKOWN" := by
  have hnone : headCategories.lookup name = none := by
    rw [List.lookup_eq_none_iff]
    intro entry hentry
    have hne : name ≠ entry.1 := fun heq => h (heq ▸ List.mem_map_of_mem hentry)
    simpa using hne
  rw [headCategory, hnone, Option.getD_none]

theorem headCategory_eq_iff {name category : String} :
    headCategory name = category ↔ (name, category) ∈ headCategories ∨
      category = "UNKOWN" ∧ name ∉ headCategories.map Prod.fst := by
  -- no name is listed twice, so each entry is the one that is found
  have hlookup : ∀ entry ∈ headCategories, headCategory entry.1 = entry.2 := by decide
  by_cases hmem : name ∈ headCategories.map Prod.fst
  · -- a listed name
    obtain ⟨entry, hentry, rfl⟩ := List.mem_map.mp hmem
    rw [hlookup entry hentry]
    constructor
    · rintro rfl
      exact .inl hentry
    · rintro (hentry' | ⟨-, hno⟩)
      · exact (hlookup entry hentry).symm.trans (hlookup _ hentry')
      · exact absurd hmem hno
  · -- any other name
    rw [headCategory_of_notMem hmem]
    constructor
    · rintro rfl
      exact .inr ⟨rfl, hmem⟩
    · rintro (hentry | ⟨rfl, -⟩)
      · exact absurd (List.mem_map_of_mem hentry) hmem
      · rfl

/-- A name tells what is neither an operation nor a choice. -/
theorem headCategory_notMem (name : String) :
    headCategory name ∉ ["arithmetic", "boolean", "relational", "control"] := by
  intro hmem
  rcases headCategory_eq_iff.mp rfl with hentry | ⟨hunknown, -⟩
  · have hall : ∀ entry ∈ headCategories,
        entry.2 ∉ ["arithmetic", "boolean", "relational", "control"] := by decide
    exact hall _ hentry hmem
  · rw [hunknown] at hmem
    exact absurd hmem (by decide)

namespace Form

theorem eq_constant_iff (form : Form) : form = .constant ↔ form.category = "constant" := by
  cases form <;> simp [category]

theorem eq_pvariable_iff (form : Form) : form = .pvariable ↔ form.category = "pvar" := by
  cases form <;> simp [category]

theorem category_ofHead {name : String} (h : isIdentifier name = true) :
    (ofHead name).category = headCategory name := by
  by_cases hmem : name ∈ heads
  · have hall : ∀ s ∈ heads, isIdentifier s = true →
        (ofHead s).category = headCategory s := by decide
    exact hall name hmem h
  · have hkeys : ∀ s ∈ headCategories.map Prod.fst, s ∈ heads := by decide
    rw [ofHead_of_notMem hmem, headCategory_of_notMem fun hkey => hmem (hkeys name hkey)]
    rfl

end Form

/-! ### Productions and heads -/

namespace Expr

variable {e : Expr} {operator : String}

/-- Where no aggregation is read, the head tells the production. -/
theorem category_form_of_none (h : e.aggregator? = none) : e.form.category = e.production := by
  induction e using induction_on_children with
  | _ e ih =>
    cases e with
    | group bracket body => exact ih body List.mem_cons_self h
    | aggregated operator vars body => cases h
    | binary op left right => rw [form_binary, production]
    | unary op body => rw [form_unary, production]
    | quantified quantifier vars body => rw [form_quantified, production, Form.category]
    | _ => rfl

/-- The head of an aggregation is its operator, which is a name. -/
theorem form_of_aggregator (h : e.IsProper) (hoperator : e.aggregator? = some operator) :
    isIdentifier operator = true ∧ e.form = Form.ofHead operator ∧
      e.production = "aggregation" := by
  induction e using induction_on_children with
  | _ e ih =>
    cases e with
    | group bracket body =>
      exact ih body List.mem_cons_self (h.child List.mem_cons_self) hoperator
    | aggregated operator' vars body =>
      cases hoperator
      exact ⟨(h _ (.self _)).1, rfl, rfl⟩
    | _ => cases hoperator

theorem category_form_of_some (h : e.IsProper) (hoperator : e.aggregator? = some operator) :
    e.form.category = headCategory operator := by
  obtain ⟨hname, hform, -⟩ := form_of_aggregator h hoperator
  rw [hform, Form.category_ofHead hname]

/-- The production of no expression is unknown. -/
theorem production_ne_unknown (e : Expr) : e.production ≠ "UNKOWN" := by
  induction e using induction_on_children with
  | _ e ih =>
    cases e with
    | group bracket body => exact ih body List.mem_cons_self
    | binary op left right => cases op <;> simp [production, BinaryOp.form, Form.category]
    | unary op body => cases op <;> simp [production, UnaryOp.form, Form.category]
    | _ => simp [production]

/-- An expression that is not told as an aggregation is of its category by its production, or
    is an aggregation whose operator tells that category. -/
theorem category_form_iff (h : e.IsProper) {category : String} (hne : category ≠ "aggregation") :
    e.form.category = category ↔ e.production = category ∨
      ∃ operator, e.aggregator? = some operator ∧ headCategory operator = category := by
  cases hoperator : e.aggregator? with
  | none => simp [category_form_of_none hoperator]
  | some operator =>
    obtain ⟨-, -, hproduction⟩ := form_of_aggregator h hoperator
    simp [category_form_of_some h hoperator, hproduction, hne.symm]

/-- The head tells the production except for an aggregation that is not known as one. -/
theorem category_eq_production_iff (h : e.IsProper) :
    e.form.category = e.production ↔
      ∀ operator, e.aggregator? = some operator → operator ∈ aggregators := by
  cases hoperator : e.aggregator? with
  | none => simp [category_form_of_none hoperator]
  | some operator =>
    obtain ⟨-, -, hproduction⟩ := form_of_aggregator h hoperator
    rw [category_form_of_some h hoperator, hproduction, headCategory_eq_iff]
    simp [headCategories]

/-- Operations and choices are told by their heads. -/
theorem category_form_operation_iff (h : e.IsProper) {category : String}
    (hcategory : category ∈ ["arithmetic", "boolean", "relational", "control"]) :
    e.form.category = category ↔ e.production = category := by
  have hne : category ≠ "aggregation" := by
    rintro rfl
    exact absurd hcategory (by decide)
  rw [category_form_iff h hne, or_iff_left]
  rintro ⟨operator, -, rfl⟩
  exact headCategory_notMem operator hcategory

theorem category_form_constant_iff (h : e.IsProper) :
    e.form.category = "constant" ↔ e.production = "constant" ∨
      e.aggregator? = some "number" ∨ e.aggregator? = some "boolean" := by
  rw [category_form_iff h (by decide)]
  refine or_congr_right ?_
  simp only [headCategory_eq_iff]
  simp [headCategories, and_or_left, exists_or]

theorem category_form_pvar_iff (h : e.IsProper) :
    e.form.category = "pvar" ↔ e.production = "pvar" ∨ e.aggregator? = some "pvar_expr" := by
  rw [category_form_iff h (by decide)]
  refine or_congr_right ?_
  simp only [headCategory_eq_iff]
  simp [headCategories]

theorem category_form_unknown_iff (h : e.IsProper) :
    e.form.category = "UNKOWN" ↔ ∃ operator, e.aggregator? = some operator ∧
      operator ∉ headCategories.map Prod.fst := by
  rw [category_form_iff h (by decide), or_iff_right e.production_ne_unknown]
  refine exists_congr fun operator => and_congr_right' ?_
  rw [headCategory_eq_iff, or_iff_right, and_iff_right rfl]
  simp [headCategories]

theorem isConstant_tree (h : e.IsProper) :
    e.tree.isConstant = .ok (decide (e.form.category = "constant")) := by
  rw [Datum.isConstant, kind_tree h]
  exact congrArg Except.ok (Bool.eq_iff_iff.mpr (by simp [Form.eq_constant_iff]))

theorem isPVariable_tree (h : e.IsProper) :
    e.tree.isPVariable = .ok (decide (e.form.category = "pvar")) := by
  rw [Datum.isPVariable, kind_tree h]
  exact congrArg Except.ok (Bool.eq_iff_iff.mpr (by simp [Form.eq_pvariable_iff]))

end Expr

/-- **The category of an expression is that of its production, aggregations apart.**  Every
    expression of a model that was read from a text is written in the text, and every
    expression that is written there has a kind.  Brackets apart, the category of an
    expression that is no aggregation is that of its production, and the category of an
    aggregation is what its operator tells as a head.  So the category is that of the
    production exactly if no aggregation has an operator that is not known as one; operations
    and choices are always told right, literals and fluents are told right except that
    aggregations by `number`, `boolean` and `pvar_expr` pass for them, and an expression is
    of no known category exactly if it is an aggregation by a name that is no head. -/
theorem Model.category_of_mem_nodes {line : Nat} {text : String} {m : Model}
    (h : (Reading.ofText line text).verdict = .model m) :
    (∀ d ∈ m.expressionData, ∀ t ∈ d.nodes, ∃ (e : Expr) (ls : List Lexeme),
      e.tree = t ∧ e.Written ls ∧ ls ⊆ (Scan.ofText line text).lexemes) ∧
    ∀ (e : Expr) (ls : List Lexeme), e.Written ls → ls ⊆ (Scan.ofText line text).lexemes →
      ∃ (kind : Kind) (constant pvariable : Bool), e.tree.kind = .ok kind ∧
        e.tree.isConstant = .ok constant ∧ e.tree.isPVariable = .ok pvariable ∧
        (e.aggregator? = none → kind.form.category = e.production) ∧
        (∀ operator, e.aggregator? = some operator →
          e.production = "aggregation" ∧ kind.form.category = headCategory operator) ∧
        (kind.form.category = e.production ↔
          ∀ operator, e.aggregator? = some operator → operator ∈ aggregators) ∧
        (∀ category ∈ ["arithmetic", "boolean", "relational", "control"],
          kind.form.category = category ↔ e.production = category) ∧
        (constant = true ↔ e.production = "constant" ∨
          e.aggregator? = some "number" ∨ e.aggregator? = some "boolean") ∧
        (pvariable = true ↔ e.production = "pvar" ∨ e.aggregator? = some "pvar_expr") ∧
        (kind.form.category = "UNKOWN" ↔ ∃ operator, e.aggregator? = some operator ∧
          operator ∉ headCategories.map Prod.fst) := by
  refine ⟨Model.exists_written_of_mem_nodes h, fun e ls hwritten hsub => ?_⟩
  -- what is written with lexemes of the text has names that are spelled as such
  have hproper : e.IsProper := Expr.isProper_of_written hwritten fun l hl =>
    Scan.areSpelled_lexemes line text l (hsub hl)
  refine ⟨_, _, _, Expr.kind_tree hproper, Expr.isConstant_tree hproper,
    Expr.isPVariable_tree hproper, Expr.category_form_of_none, ?_,
    Expr.category_eq_production_iff hproper, ?_, ?_, ?_,
    Expr.category_form_unknown_iff hproper⟩
  · intro operator hoperator
    obtain ⟨-, -, hproduction⟩ := Expr.form_of_aggregator hproper hoperator
    exact ⟨hproduction, Expr.category_form_of_some hproper hoperator⟩
  · intro category hcategory
    exact Expr.category_form_operation_iff hproper hcategory
  · rw [decide_eq_true_iff, Expr.category_form_constant_iff hproper]
  · rw [decide_eq_true_iff, Expr.category_form_pvar_iff hproper]

def numberedReward : Expr :=
  .group .round (.aggregated "number" [⟨"?x", "o"⟩] (.integer 1))

def numberedText : String := "domain d \x7b
  pvariables \x7b \x7d;
  cpfs \x7b \x7d;
  reward = (number_\x7b?x : o\x7d 1);
\x7d
non-fluents n \x7b \x7d
instance i \x7b \x7d"

/-- An aggregation by `number` passes for a literal. -/
theorem Model.category_of_numberedText :
    ∃ m kind, (Reading.ofText 1 numberedText).verdict = .model m ∧
      m.domain.reward = numberedReward.datum ∧ numberedReward.tree.kind = .ok kind ∧
      kind.form.category = "constant" ∧ numberedReward.production = "aggregation" ∧
      numberedReward.tree.isConstant = .ok true := by
  have hread : ((Reading.ofText 1 numberedText).verdict.model?.map fun m => m.domain.reward) =
      some numberedReward.datum := by
    rw [numberedText, Reading.ofText_eq_ofScan 1 rfl]
    decide +kernel
  obtain ⟨m, hmodel, hreward⟩ := Option.map_eq_some_iff.mp hread
  have hverdict := Verdict.eq_model_of_model? hmodel
  have hwritten : numberedReward.Written [.symbol .leftParen, .ident "number",
      .symbol .underscore, .symbol .leftCurly, .variable "?x", .symbol .colon, .ident "o",
      .symbol .rightCurly, .integer 1, .symbol .rightParen] :=
    .group .round (.aggregated "number" (.mk (.mk "?x" "o") .nil) (.integer 1))
  -- the reward is written with lexemes of the text
  have hsub : ∀ l ∈ [Lexeme.symbol .leftParen, .ident "number", .symbol .underscore,
      .symbol .leftCurly, .variable "?x", .symbol .colon, .ident "o", .symbol .rightCurly,
      .integer 1, .symbol .rightParen], l ∈ (Scan.ofText 1 numberedText).lexemes := by
    rw [numberedText, Reading.scan_eq_walk 1 rfl]
    decide +kernel
  obtain ⟨kind, constant, -, hkind, hconstant, -, -, haggregation, -, -, hliteral, -, -⟩ :=
    (category_of_mem_nodes hverdict).2 numberedReward _ hwritten hsub
  have hcategory := (haggregation "number" rfl).2
  rw [hliteral.mpr (.inr (.inl rfl))] at hconstant
  exact ⟨m, kind, hverdict, hreward, hkind, hcategory, rfl, hconstant⟩

end Rddl
