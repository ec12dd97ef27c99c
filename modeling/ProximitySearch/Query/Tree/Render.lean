import ProximitySearch.Query.Quoted
import ProximitySearch.Query.Tree

/-!
# Rendering

The text of a tree. Operands that an operator splits are put in parentheses, whether they need them or not. A tree
whose child links run in a circle has no text.
-/

namespace ProximitySearch.Query.Tree

/-- Text of a literal in a query. Strings stand in single quotes. -/
def literalText : Literal → String
  | .string s => "'" ++ String.ofList (escape '\'' s.toList) ++ "'"
  | .number x => numberText x
  | .boolean b => booleanText b
  | .null => "null"

/-- Whether a node is put in parentheses as an operand. -/
def isCompound (t : Tree) (id : Nat) : Bool :=
  match t.kind? id with
  | some .and | some .or | some (.comparison _) => true
  | _ => false

/-- Text of a node as an operand, from its own text. -/
def operandText (t : Tree) (id : Nat) (text : String) : String :=
  if t.isCompound id then "(" ++ text ++ ")" else text

/-- The children whose texts a node's text is made of. Leaves have none, whatever is linked below them, and neither has
a comparison unless there are two to compare. -/
def printedChildren (node : Node) : List Nat :=
  match node.kind with
  | .identifier _ | .literal _ => []
  | .comparison _ => if node.children.length = 2 then node.children else []
  | _ => node.children

/-- Text of a node whose printed children have the texts `children`, in order. -/
def nodeText (t : Tree) (node : Node) (children : List String) : String :=
  let operands := List.zipWith t.operandText (printedChildren node) children
  match node.kind with
  | .script => String.join children
  | .and => " && ".intercalate operands
  | .or => " || ".intercalate operands
  | .not => "!" ++ String.join operands
  | .delayed => "((_Delayed_ = true) && (" ++ String.join children ++ "))"
  | .function space name => space ++ ":" ++ name ++ "(" ++ ", ".intercalate operands ++ ")"
  | .comparison op =>
    match children with
    | [left, right] => left ++ " " ++ op.symbol ++ " " ++ right
    | _ => ""
  | .identifier name => name
  | .literal value => literalText value

/-- Text of a node, if the printed child links below it end within `depth` steps. An id that is not in the tree has an
empty text. -/
def renderWithin? (t : Tree) : (depth : Nat) → (id : Nat) → Option String
  | 0, _ => none
  | depth + 1, id =>
    match t.node? id with
    | none => some ""
    | some node => ((printedChildren node).mapM (t.renderWithin? depth)).map (t.nodeText node)

/-- Text of a tree. A walk along child links that meets no node twice is no longer than the tree. -/
def render? (t : Tree) : Option String :=
  t.renderWithin? (t.size + 1) root

end ProximitySearch.Query.Tree
