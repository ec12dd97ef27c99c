import Mathlib.Data.List.Nodup
import ProximitySearch.Proofs.Layout
import ProximitySearch.Proofs.Subtrees
import ProximitySearch.Query.Tree.Render

/-!
# Trees that calls assemble

Besides being read from a text, a tree can be assembled by calls that add a node and calls that overwrite a parent's id
(`Tree.Edit`). They may name any ids, even that of the node being added, which is then its own child. But an id enters
a list of children only when its node is added, so no two ids list it, and none that comes after it does
(`Tree.IsGrown`). A node that lists itself is then listed by no other, and child links from the script never reach it.

Rendering follows child links and keeps no record of the ids it has met (`Tree.Prints`). From the script it goes to
greater and greater ids of the tree, so it ends, and the bound that `Tree.render?` puts on it is never met
(`Tree.assembled_prints`).
-/

namespace ProximitySearch.Query.Tree

variable {t : Tree} {id : Nat} {text : String}

/-! ## Calls -/

/-- A call that changes a tree. -/
inductive Edit where
  | addNode (parent : Nat) (kind : NodeKind)
  | setParent (id : Nat) (parent : Option Nat)

/-- The tree after a call. -/
def Edit.apply (t : Tree) : Edit → Tree
  | .addNode parent kind => t.addNode parent kind
  | .setParent id parent => t.setParent id parent

/-- The tree that calls make of a script without an expression. -/
def assembled (edits : List Edit) : Tree := edits.foldl Edit.apply empty

theorem exists_node?_of_lt (h : id < t.size) : ∃ node, t.node? id = some node :=
  ⟨_, List.getElem?_eq_getElem h⟩

theorem node?_of_size_le (h : t.size ≤ id) : t.node? id = none :=
  List.getElem?_eq_none h

theorem children_addNode (t : Tree) (parent : Nat) (kind : NodeKind) (i : Nat) :
    (t.addNode parent kind).children i =
      if i = parent ∧ i ≤ t.size then t.children i ++ [t.size] else t.children i := by
  rcases Nat.lt_trichotomy i t.size with hlt | rfl | hgt
  · obtain ⟨node, hnode⟩ := exists_node?_of_lt hlt
    simp only [children, node?_addNode_of_lt kind hlt, hnode, Nat.le_of_lt hlt, and_true]
    split <;> rfl
  · have hnew : (t.nodes ++ [⟨kind, some parent, []⟩])[t.size]? = some ⟨kind, some parent, []⟩ :=
      List.getElem?_concat_length
    rw [children_of_none (node?_of_size_le (Nat.le_refl _))]
    simp only [children, node?, addNode, List.getElem?_modify, hnew, Nat.le_refl, and_true, eq_comm (a := t.size)]
    split <;> rfl
  · have hnone : t.node? i = none := node?_of_size_le (Nat.le_of_lt hgt)
    have hnone' : (t.addNode parent kind).node? i = none := node?_of_size_le (size_addNode t parent kind ▸ hgt)
    rw [if_neg fun hi => Nat.not_le_of_lt hgt hi.2, children_of_none hnone, children_of_none hnone']

theorem children_setParent (t : Tree) (id : Nat) (parent : Option Nat) (i : Nat) :
    (t.setParent id parent).children i = t.children i := by
  simp only [children, setParent, node?, List.getElem?_modify]
  split
  · cases t.nodes[i]? <;> rfl
  · cases t.nodes[i]? <;> rfl

/-! ## What calls keep -/

/-- Ids of the tree, but not the script's, are listed as children, each by one id and once at most: by an id that was
added before it, or by itself. -/
structure IsGrown (t : Tree) : Prop where
  root_lt_size : root < t.size
  le_child : ∀ i, ∀ child ∈ t.children i, i ≤ child
  child_lt_size : ∀ i, ∀ child ∈ t.children i, child < t.size
  root_lt_child : ∀ i, ∀ child ∈ t.children i, root < child
  nodup : ∀ i, (t.children i).Nodup
  unique : ∀ i j, ∀ child ∈ t.children i, child ∈ t.children j → i = j

theorem isGrown_empty : empty.IsGrown := by
  have hnone (i : Nat) : empty.children i = [] := by
    cases i <;> rfl
  refine ⟨by decide, ?_, ?_, ?_, ?_, ?_⟩ <;> simp [hnone]

namespace IsGrown

theorem addNode (h : t.IsGrown) (parent : Nat) (kind : NodeKind) : (t.addNode parent kind).IsGrown := by
  have hmem (i child : Nat) (hchild : child ∈ (t.addNode parent kind).children i) :
      child ∈ t.children i ∨ child = t.size ∧ i = parent ∧ i ≤ t.size := by
    rw [children_addNode] at hchild
    split at hchild
    · next hi => exact (List.mem_append.mp hchild).imp_right fun hnew => ⟨List.mem_singleton.mp hnew, hi⟩
    · exact .inl hchild
  constructor
  case root_lt_size =>
    rw [size_addNode]
    exact Nat.lt_succ_of_lt h.root_lt_size
  case le_child =>
    intro i child hchild
    rcases hmem i child hchild with hold | ⟨rfl, -, hi⟩
    · exact h.le_child i child hold
    · exact hi
  case child_lt_size =>
    intro i child hchild
    rw [size_addNode]
    rcases hmem i child hchild with hold | ⟨rfl, -⟩
    · exact Nat.lt_succ_of_lt (h.child_lt_size i child hold)
    · exact Nat.lt_succ_self _
  case root_lt_child =>
    intro i child hchild
    rcases hmem i child hchild with hold | ⟨rfl, -⟩
    · exact h.root_lt_child i child hold
    · exact h.root_lt_size
  case nodup =>
    intro i
    rw [children_addNode]
    split
    · refine List.nodup_append.mpr ⟨h.nodup i, List.nodup_singleton _, fun child hold new hnew => ?_⟩
      rw [List.mem_singleton.mp hnew]
      exact Nat.ne_of_lt (h.child_lt_size i child hold)
    · exact h.nodup i
  case unique =>
    -- the new id was listed nowhere before
    intro i j child hi hj
    rcases hmem i child hi with hi | ⟨rfl, hi, -⟩
    · rcases hmem j child hj with hj | ⟨rfl, -⟩
      · exact h.unique i j child hi hj
      · exact absurd (h.child_lt_size i _ hi) (Nat.lt_irrefl _)
    · rcases hmem j _ hj with hj | ⟨-, hj, -⟩
      · exact absurd (h.child_lt_size j _ hj) (Nat.lt_irrefl _)
      · exact hi.trans hj.symm

theorem setParent (h : t.IsGrown) (id : Nat) (parent : Option Nat) : (t.setParent id parent).IsGrown := by
  obtain ⟨hroot, hle, hlt, hpos, hnodup, hunique⟩ := h
  constructor <;> simpa only [children_setParent, size_setParent]

theorem run (h : t.IsGrown) (edits : List Edit) : (edits.foldl Edit.apply t).IsGrown := by
  induction edits generalizing t with
  | nil => exact h
  | cons edit edits ih =>
    refine ih ?_
    cases edit with
    | addNode parent kind => exact h.addNode parent kind
    | setParent id parent => exact h.setParent id parent

/-! ## Below the script -/

theorem lt_size (h : t.IsGrown) (hbelow : t.Below root id) : id < t.size := by
  cases hbelow with
  | refl => exact h.root_lt_size
  | tail _ hchild => exact h.child_lt_size _ id hchild

/-- No id below the script lists itself: the one that lists it would be the same, and so on up to the script. -/
theorem not_mem_children_self (h : t.IsGrown) (hbelow : t.Below root id) : id ∉ t.children id := by
  induction hbelow with
  | refl => exact fun hself => Nat.lt_irrefl _ (h.root_lt_child root root hself)
  | @tail above id _ hchild ih =>
    intro hself
    obtain rfl := h.unique id above id hself hchild
    exact ih hself

theorem lt_child (h : t.IsGrown) (hbelow : t.Below root id) {child : Nat} (hchild : child ∈ t.children id) :
    id < child := by
  refine Nat.lt_of_le_of_ne (h.le_child id child hchild) ?_
  rintro rfl
  exact h.not_mem_children_self hbelow hchild

theorem nodup_flatMap_children (h : t.IsGrown) : (t.nodes.flatMap Node.children).Nodup := by
  rw [← flatMap_children, List.nodup_flatMap]
  refine ⟨fun i _ => h.nodup i, List.nodup_range.imp fun {i j} hne => ?_⟩
  exact List.disjoint_left.mpr fun child hi hj => hne (h.unique i j child hi hj)

/-- Of the ids below the script, the script is in no list of children and each other id is in one, once. -/
theorem count_children (h : t.IsGrown) (hbelow : t.Below root id) :
    (t.nodes.flatMap Node.children).count id = if id = root then 0 else 1 := by
  have hmem : id ∈ t.nodes.flatMap Node.children ↔ ¬id = root := by
    rw [← flatMap_children, List.mem_flatMap]
    constructor
    · rintro ⟨i, -, hchild⟩
      exact Nat.ne_of_gt (h.root_lt_child i id hchild)
    · intro hne
      obtain heq | ⟨above, habove, hchild⟩ := hbelow.cases_tail
      · exact absurd heq hne
      · exact ⟨above, List.mem_range.mpr (h.lt_size habove), hchild⟩
  rw [h.nodup_flatMap_children.count, if_congr hmem rfl rfl, ite_not]

end IsGrown

/-! ## Rendering -/

/-- The recursion along printed children, without a bound or a record of the ids it has met, ends below an id with a
text. -/
inductive Prints (t : Tree) : (id : Nat) → (text : String) → Prop
  | missing {id : Nat} (hnone : t.node? id = none) : Prints t id ""
  | node {id : Nat} {node : Node} {text : Nat → String} (hnode : t.node? id = some node)
      (hchildren : ∀ child ∈ printedChildren node, Prints t child (text child)) :
      Prints t id (t.nodeText node ((printedChildren node).map text))

theorem Prints.unique {text' : String} (h : t.Prints id text) (h' : t.Prints id text') : text = text' := by
  induction h generalizing text' with
  | missing hnone =>
    cases h' with
    | missing => rfl
    | node hnode => simp [hnone] at hnode
  | @node id node text hnode hchildren ih =>
    cases h' with
    | missing hnone => simp [hnode] at hnone
    | @node _ node' text' hnode' hchildren' =>
      obtain rfl := Option.some.inj (hnode.symm.trans hnode')
      rw [List.map_congr_left fun child hchild => ih child hchild (hchildren' child hchild)]

theorem mapM_eq_some {α β : Type} {f : α → Option β} {g : α → β} {l : List α} (h : ∀ a ∈ l, f a = some (g a)) :
    l.mapM f = some (l.map g) := by
  induction l with
  | nil => rfl
  | cons a l ih =>
    obtain ⟨ha, hl⟩ := List.forall_mem_cons.mp h
    rw [List.mapM_cons, ha, ih hl]
    rfl

theorem mem_children_of_mem_printedChildren {node : Node} {child : Nat} (hnode : t.node? id = some node)
    (hchild : child ∈ printedChildren node) : child ∈ t.children id := by
  rw [children_of_node? hnode]
  unfold printedChildren at hchild
  split at hchild
  · simp at hchild
  · simp at hchild
  · split at hchild
    · exact hchild
    · simp at hchild
  · exact hchild

/-- Below an id that the script leads to the recursion ends within as many steps as there are ids from there on: each
step goes to a greater id. -/
theorem IsGrown.exists_prints (h : t.IsGrown) {depth : Nat} (hbelow : t.Below root id) (hdepth : t.size ≤ id + depth) :
    ∃ text, t.renderWithin? depth id = some text ∧ t.Prints id text := by
  induction depth generalizing id with
  | zero => exact absurd (h.lt_size hbelow) (Nat.not_lt_of_le hdepth)
  | succ depth ih =>
    obtain ⟨node, hnode⟩ := exists_node?_of_lt (h.lt_size hbelow)
    have hchildren : ∀ child ∈ printedChildren node,
        ∃ text, t.renderWithin? depth child = some text ∧ t.Prints child text := by
      intro child hchild
      have hlink := mem_children_of_mem_printedChildren hnode hchild
      have hlt := h.lt_child hbelow hlink
      exact ih (hbelow.tail hlink) (by omega)
    choose! text htext hprints using hchildren
    refine ⟨_, ?_, .node hnode hprints⟩
    rw [renderWithin?, hnode]
    dsimp only
    rw [mapM_eq_some htext, Option.map_some]

/-- Whatever calls assemble a tree, and whatever ids they name, the ids that child links lead to from the script make a
finite tree: they are ids of the tree, each but the script is listed as a child once in all, and children have greater
ids. The recursion that renders the script ends without a bound, and its text is the tree's. -/
theorem assembled_prints (edits : List Edit) :
    (∀ id, (assembled edits).Below root id → id < (assembled edits).size ∧
        ((assembled edits).nodes.flatMap Node.children).count id = (if id = root then 0 else 1) ∧
        ∀ child ∈ (assembled edits).children id, id < child) ∧
      ∃ text, (assembled edits).render? = some text ∧
        ∀ text', (assembled edits).Prints root text' ↔ text' = text := by
  have hgrown : (assembled edits).IsGrown := isGrown_empty.run edits
  refine ⟨fun id hbelow => ⟨hgrown.lt_size hbelow, hgrown.count_children hbelow, fun _ => hgrown.lt_child hbelow⟩, ?_⟩
  have hdepth : (assembled edits).size ≤ root + ((assembled edits).size + 1) := by omega
  obtain ⟨text, hrender, hprints⟩ := hgrown.exists_prints .refl hdepth
  refine ⟨text, hrender, fun text' => ⟨fun h => h.unique hprints, ?_⟩⟩
  rintro rfl
  exact hprints

/-- Calls that make the second node its own child and give it another, name a parent that is not there, and set links
that no list of children agrees with. -/
def ownChild : List Edit := [
  .addNode 0 .and,
  .addNode 2 .not,
  .addNode 2 (.identifier "B"),
  .addNode 1 (.identifier "A"),
  .addNode 9 .or,
  .setParent 1 (some 4),
  .setParent 7 none]

theorem assembled_prints_ownChild :
    (assembled ownChild).children 2 = [2, 3] ∧ (assembled ownChild).Below root 1 ∧
      (1 < (assembled ownChild).size ∧ ((assembled ownChild).nodes.flatMap Node.children).count 1 = 1 ∧
        ∀ child ∈ (assembled ownChild).children 1, 1 < child) ∧
      (assembled ownChild).render? = some "A" ∧ ∀ text, (assembled ownChild).Prints root text ↔ text = "A" := by
  have hbelow : (assembled ownChild).Below root 1 := .single (by decide)
  have hrender : (assembled ownChild).render? = some "A" := by decide +kernel
  obtain ⟨htree, text, htext, hprints⟩ := assembled_prints ownChild
  obtain rfl := Option.some.inj (htext.symm.trans hrender)
  exact ⟨by decide, hbelow, htree 1 hbelow, hrender, hprints⟩

end ProximitySearch.Query.Tree
