import ProximitySearch.Query.Tree

/-!
# Walks over a tree

`Tree.subtree` lists the nodes below a node, each once, parents before children and children in order. `Tree.isNegated`
climbs from a node to the script. Both remember the ids they have met, so they end on any links.
-/

namespace ProximitySearch.Query.Tree

/-- Ids of the tree that are not in `seen`. -/
def unseen (t : Tree) (seen : List Nat) : List Nat :=
  (List.range t.size).filter (· ∉ seen)

theorem unseen_cons (t : Tree) (id : Nat) (seen : List Nat) :
    t.unseen (id :: seen) = (t.unseen seen).filter (· ≠ id) := by
  simp [unseen, List.filter_filter]

theorem length_unseen_cons_le (t : Tree) (id : Nat) (seen : List Nat) :
    (t.unseen (id :: seen)).length ≤ (t.unseen seen).length := by
  rw [unseen_cons]
  exact List.length_filter_le _ _

theorem length_unseen_cons_lt {t : Tree} {id : Nat} {seen : List Nat} {node : Node}
    (h : t.node? id = some node) (hs : id ∉ seen) :
    (t.unseen (id :: seen)).length < (t.unseen seen).length := by
  rw [unseen_cons, List.length_filter_lt_length_iff_exists]
  obtain ⟨hlt, -⟩ := List.getElem?_eq_some_iff.mp h
  exact ⟨id, by simp [unseen, size, hlt, hs], by simp⟩

/-! ## Down -/

/-- Nodes that can be reached from the ids in `pending`, in order, without those in `seen`. -/
def walk (t : Tree) (seen : List Nat) : (pending : List Nat) → List Node
  | [] => []
  | id :: pending =>
    if id ∈ seen then walk t seen pending
    else
      match _h : t.node? id with
      | none => walk t (id :: seen) pending
      | some node => node :: walk t (id :: seen) (node.children ++ pending)
termination_by pending => ((t.unseen seen).length, pending.length)
decreasing_by
  · exact Prod.Lex.right _ (by simp)
  · rcases Nat.lt_or_eq_of_le (t.length_unseen_cons_le id seen) with h | h
    · exact Prod.Lex.left _ _ h
    · rw [h]
      exact Prod.Lex.right _ (by simp)
  · exact Prod.Lex.left _ _ (length_unseen_cons_lt _h ‹_›)

theorem walk_of_node? {t : Tree} {seen pending : List Nat} {id : Nat} {node : Node} (hid : id ∉ seen)
    (hnode : t.node? id = some node) :
    t.walk seen (id :: pending) = node :: t.walk (id :: seen) (node.children ++ pending) := by
  rw [walk, if_neg hid]
  split <;> simp_all

/-- The nodes at and below an id. -/
def subtree (t : Tree) (id : Nat) : List Node := t.walk [] [id]

theorem subtree_of_leaf {t : Tree} {id : Nat} {node : Node} (hnode : t.node? id = some node)
    (hleaf : node.children = []) : t.subtree id = [node] := by
  rw [subtree, walk_of_node? (by simp) hnode, hleaf, List.nil_append, walk]

/-- Identifiers at and below an id. -/
def identifiersIn (t : Tree) (id : Nat) : List String :=
  (t.subtree id).filterMap fun node =>
    match node.kind with
    | .identifier name => some name
    | _ => none

theorem identifiersIn_of_leaf {t : Tree} {id : Nat} {parent : Option Nat} {name : String}
    (hnode : t.node? id = some ⟨.identifier name, parent, []⟩) : t.identifiersIn id = [name] := by
  rw [identifiersIn, subtree_of_leaf hnode rfl]
  rfl

/-- Literals at and below an id. -/
def literalsIn (t : Tree) (id : Nat) : List Literal :=
  (t.subtree id).filterMap fun node =>
    match node.kind with
    | .literal value => some value
    | _ => none

theorem literalsIn_of_leaf {t : Tree} {id : Nat} {parent : Option Nat} {value : Literal}
    (hnode : t.node? id = some ⟨.literal value, parent, []⟩) : t.literalsIn id = [value] := by
  rw [literalsIn, subtree_of_leaf hnode rfl]
  rfl

/-! ## Up -/

/-- Whether a node stands under a negation: on the way up from `id` is a `not`, a delayed expression, or a conjunction
one of whose other members is delayed. -/
def negatedAbove (t : Tree) (seen : List Nat) (id : Nat) : Bool :=
  if id ∈ seen then false
  else
    match _h : t.node? id with
    | none => false
    | some node =>
      let seen' := id :: seen
      let hasDelayedMember := node.children.any fun child => child ∉ seen' && t.kind? child == some .delayed
      match node.kind, node.parent with
      | .script, _ => false
      | .not, _ => true
      | .delayed, _ => true
      | .and, parent =>
        hasDelayedMember ||
          match parent with
          | none => false
          | some parent => negatedAbove t seen' parent
      | _, none => false
      | _, some parent => negatedAbove t seen' parent
termination_by (t.unseen seen).length
decreasing_by all_goals exact length_unseen_cons_lt _h ‹_›

/-- Whether a node is negated. -/
def isNegated (t : Tree) (id : Nat) : Bool := t.negatedAbove [] id

end ProximitySearch.Query.Tree
