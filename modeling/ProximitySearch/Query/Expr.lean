import ProximitySearch.Query.Literal

/-!
# Query expressions

What a query says, without its blanks and needless parentheses. A conjunction under a conjunction is written as one
node, and likewise a disjunction under a disjunction.
-/

namespace ProximitySearch.Query

/-- A query expression. -/
inductive Expr where
  | and (operands : List Expr)
  | or (operands : List Expr)
  | not (operand : Expr)
  | delayed (operand : Expr)
  | function (namespaceName name : String) (arguments : List Expr)
  | comparison (op : CompareOp) (left right : Expr)
  | identifier (name : String)
  | literal (value : Literal)

namespace Expr

/-- Conjunction of operands; a single one stands for itself. -/
def conjunction : List Expr → Expr
  | [e] => e
  | operands => .and (operands.flatMap fun
    | .and inner => inner
    | e => [e])

/-- Disjunction of operands; a single one stands for itself. -/
def disjunction : List Expr → Expr
  | [e] => e
  | operands => .or (operands.flatMap fun
    | .or inner => inner
    | e => [e])

/-- The expression that a word stands for: a literal, if it is reserved, and an identifier otherwise. -/
def ofWord : String → Expr
  | "true" => .literal (.boolean true)
  | "false" => .literal (.boolean false)
  | "null" => .literal .null
  | name => .identifier name

end Expr

end ProximitySearch.Query
