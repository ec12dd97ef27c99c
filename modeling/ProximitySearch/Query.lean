import ProximitySearch.Error
import ProximitySearch.Query.Parser
import ProximitySearch.Query.Tree.Render
import ProximitySearch.Query.Tree.Walk

/-!
# Queries

The tree of a query text. Ids are given in the order in which the text mentions nodes, a parent before its children.
-/

namespace ProximitySearch.Query

mutual

/-- The tree with an expression added below `parent`. -/
def Tree.insert (t : Tree) (parent : Nat) : Expr → Tree
  | .and operands => (t.addNode parent .and).insertAll t.size operands
  | .or operands => (t.addNode parent .or).insertAll t.size operands
  | .not e => (t.addNode parent .not).insert t.size e
  | .delayed e => (t.addNode parent .delayed).insert t.size e
  | .function space name arguments => (t.addNode parent (.function space name)).insertAll t.size arguments
  | .comparison op left right =>
    ((t.addNode parent (.comparison op)).insert t.size left).insert t.size right
  | .identifier name => t.addNode parent (.identifier name)
  | .literal value => t.addNode parent (.literal value)

/-- The tree with expressions added below `parent`, in order. -/
def Tree.insertAll (t : Tree) (parent : Nat) : List Expr → Tree
  | [] => t
  | e :: rest => (t.insert parent e).insertAll parent rest

end

/-- The script of an expression. -/
def Tree.ofExpr (e : Expr) : Tree :=
  Tree.empty.insert Tree.root e

/-- The tree of a query text. -/
def parse (text : String) : Except SearchError Tree :=
  match Expr.parse? text with
  | some e => .ok (.ofExpr e)
  | none => .error (.parse "the text is not a query expression")

end ProximitySearch.Query
