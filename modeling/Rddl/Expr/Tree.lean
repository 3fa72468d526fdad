/-
  Rddl/Expr/Tree.lean
  ===================
  **Expressions as untyped trees.**

  The tree of an expression is a pair of a head and its arguments; brackets wrap
  the expression inside once more.
-/
import Rddl.Expr

namespace Rddl

mutual

/-- A term as a datum: variables and enumeration values stay texts. -/
def Term.datum : Term → Datum
  | .variable name => .text name
  | .enumValue name => .text name
  | .fluent name => .expression (.tuple [.text "pvar_expr", .tuple [.text name, .absent]])
  | .applied name args =>
    .expression (.tuple [.text "pvar_expr", .tuple [.text name, .list (Term.data args)]])

def Term.data : List Term → List Datum
  | [] => []
  | t :: ts => t.datum :: Term.data ts

end

namespace Occurrence

def tree (o : Occurrence) : Datum :=
  .tuple [.text "pvar_expr",
    .tuple [.text o.name, (o.args.map fun args => .list (Term.data args)).getD .absent]]

end Occurrence

namespace TypedVar

def datum (v : TypedVar) : Datum :=
  .tuple [.text "typed_var", .tuple [.text v.name, .text v.type]]

end TypedVar

mutual

def Expr.tree : Expr → Datum
  | .enumValue name => .tuple [.text "penum_expr", .text name]
  | .variable name => .tuple [.text "param_expr", .text name]
  | .occurrence fluent => fluent.tree
  | .group _ body => .expression body.tree
  | .call function args => .tuple [.text "func", .tuple [.text function, .list (Expr.data args)]]
  | .binary op left right =>
    .tuple [.text op.symbol.spelling, .tuple [.expression left.tree, .expression right.tree]]
  | .unary op body => .tuple [.text op.symbol.spelling, .tuple [.expression body.tree]]
  | .truth value => .tuple [.text "boolean", .truth value]
  | .integer value => .tuple [.text "number", .integer value]
  | .real value => .tuple [.text "number", .real value]
  | .quantified quantifier vars body =>
    .tuple [.text quantifier.keyword.spelling,
      .tuple (vars.map TypedVar.datum ++ [.expression body.tree])]
  | .aggregated operator vars body =>
    .tuple [.text operator, .tuple (vars.map TypedVar.datum ++ [.expression body.tree])]
  | .conditional condition yes no =>
    .tuple [.text "if",
      .tuple [.expression condition.tree, .expression yes.tree, .expression no.tree]]
  | .switch subject cases =>
    .tuple [.text "switch", .tuple (.expression subject.tree :: Case.data cases)]
  | .random distribution parameter =>
    .tuple [.text "randomvar",
      .tuple [.text distribution.keyword.spelling, .tuple [.expression parameter.tree]]]
  | .randomPair distribution first second =>
    .tuple [.text "randomvar",
      .tuple [.text distribution.keyword.spelling,
        .tuple [.expression first.tree, .expression second.tree]]]
  | .dirichlet type parameter =>
    .tuple [.text "randomvar",
      .tuple [.text Keyword.dirichlet.spelling, .tuple [.text type, .expression parameter.tree]]]
  | .discrete type outcomes =>
    .tuple [.text "randomvar",
      .tuple [.text Keyword.discrete.spelling,
        .tuple (.tuple [.text "enum_type", .text type] :: Outcome.data outcomes)]]

def Expr.data : List Expr → List Datum
  | [] => []
  | e :: es => .expression e.tree :: Expr.data es

def Case.datum : Case → Datum
  | .value guard body =>
    .tuple [.text "case", .tuple [.expression guard.tree, .expression body.tree]]
  | .default body => .tuple [.text "default", .expression body.tree]

def Case.data : List Case → List Datum
  | [] => []
  | c :: cs => c.datum :: Case.data cs

def Outcome.datum : Outcome → Datum
  | .weighted label weight =>
    .tuple [.text "lconst", .tuple [.text label, .expression weight.tree]]
  | .otherwise label =>
    .tuple [.text "lconst", .tuple [.text label, .text Keyword.otherwise.spelling]]

def Outcome.data : List Outcome → List Datum
  | [] => []
  | o :: os => o.datum :: Outcome.data os

end

namespace Expr

def datum (e : Expr) : Datum := .expression e.tree

end Expr

end Rddl
