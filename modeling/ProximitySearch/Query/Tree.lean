import ProximitySearch.Query.Literal

/-!
# Query trees

A tree is a list of nodes, and a node is named by its place in the list. Nodes hold their parent's id and their
children's. The two need not agree: links can be set to anything, and a tree that was read in may hold any.
-/

namespace ProximitySearch.Query

/-- What a node stands for. -/
inductive NodeKind where
  | script
  | and
  | or
  | not
  | delayed
  | function (namespaceName name : String)
  | comparison (op : CompareOp)
  | identifier (name : String)
  | literal (value : Literal)
deriving DecidableEq

/-- A node and its links. -/
structure Node where
  kind : NodeKind
  parent : Option Nat
  children : List Nat
deriving DecidableEq

/-- Nodes by id. -/
structure Tree where
  nodes : List Node
deriving DecidableEq

namespace Tree

/-- A script without an expression. -/
def empty : Tree := ⟨[⟨.script, none, []⟩]⟩

instance : Inhabited Tree := ⟨empty⟩

/-- Id of the script. -/
def root : Nat := 0

/-- Number of nodes. -/
def size (t : Tree) : Nat := t.nodes.length

/-- Whether there is nothing but the script. -/
def isEmpty (t : Tree) : Bool := t.size ≤ 1

/-- The node with an id. -/
def node? (t : Tree) (id : Nat) : Option Node := t.nodes[id]?

/-- Kind of a node. -/
def kind? (t : Tree) (id : Nat) : Option NodeKind := (t.node? id).map Node.kind

/-- Parent of a node. -/
def parent? (t : Tree) (id : Nat) : Option Nat := (t.node? id).bind Node.parent

/-- Children of a node, none if there is no such node. -/
def children (t : Tree) (id : Nat) : List Nat := ((t.node? id).map Node.children).getD []

/-- The tree with a new node, whose id is the old size. It becomes the last child of its parent, which may be the new
node itself; a parent that is not in the tree has no list to enter it in. -/
def addNode (t : Tree) (parent : Nat) (kind : NodeKind) : Tree :=
  let id := t.size
  let nodes := t.nodes ++ [⟨kind, some parent, []⟩]
  ⟨nodes.modify parent fun node => { node with children := node.children ++ [id] }⟩

@[simp] theorem size_addNode (t : Tree) (parent : Nat) (kind : NodeKind) :
    (t.addNode parent kind).size = t.size + 1 := by
  simp [addNode, size]

/-- The tree with another parent set at a node. Children lists stay as they are. -/
def setParent (t : Tree) (id : Nat) (parent : Option Nat) : Tree :=
  ⟨t.nodes.modify id fun node => { node with parent }⟩

@[simp] theorem size_setParent (t : Tree) (id : Nat) (parent : Option Nat) :
    (t.setParent id parent).size = t.size := by
  simp [setParent, size]

/-- Function calls of a namespace, with their names, in order of creation. -/
def functions (t : Tree) (namespaceName : String) : List (Nat × String) :=
  t.nodes.zipIdx.filterMap fun (node, id) =>
    match node.kind with
    | .function space name => if space = namespaceName then some (id, name) else none
    | _ => none

end Tree

end ProximitySearch.Query
