import Mathlib.Logic.Relation
import Mathlib.Tactic.Common
import ProximitySearch.Query

/-!
# Nodes below a node

A walk over a tree takes ids off a stack and puts the children of those it has not seen in their place. It meets ids in
the order of a depth-first recursion (`Tree.walk_eq_preorder`), each once, and meets just those that child links lead
to, whatever the links are: the ids met are closed under children, up to what is pending (`Tree.Settled`). The stack is
empty after a round for the first id and one for each child link (`Tree.metWithin_eq_preorder`), since the children of
an id are put on it once. `Tree.subtree_depthFirst` says so of subtrees.
-/

namespace ProximitySearch.Query.Tree

variable {t : Tree} {seen pending : List Nat}

/-- Child links lead from one id to another, or the two are the same. -/
def Below (t : Tree) : (above below : Nat) → Prop :=
  Relation.ReflTransGen fun i j => j ∈ t.children i

theorem children_of_node? {id : Nat} {node : Node} (h : t.node? id = some node) : t.children id = node.children := by
  simp [children, h]

theorem children_of_none {id : Nat} (h : t.node? id = none) : t.children id = [] := by
  simp [children, h]

theorem flatMap_children (t : Tree) : (List.range t.size).flatMap t.children = t.nodes.flatMap Node.children := by
  have hmap : (List.range t.size).map t.children = t.nodes.map Node.children := by
    refine List.ext_getElem (by simp [size]) fun i hi hi' => ?_
    have hlt : i < t.nodes.length := by simpa using hi'
    simp [children, node?, List.getElem?_eq_getElem hlt]
  rw [List.flatMap_def, List.flatMap_def, hmap]

/-! ## Depth first -/

theorem length_unseen_append_le (t : Tree) (met seen : List Nat) :
    (t.unseen (met ++ seen)).length ≤ (t.unseen seen).length := by
  induction met with
  | nil => exact Nat.le_refl _
  | cons id met ih => exact Nat.le_trans (t.length_unseen_cons_le id _) ih

/-- Ids that a depth-first recursion from some ids meets, without those in `seen`: each id before those below it, and
these before the ids that come after it. What was met has been seen from then on. -/
def preorder (t : Tree) (seen : List Nat) : (ids : List Nat) → List Nat
  | [] => []
  | id :: rest =>
    if id ∈ seen then t.preorder seen rest
    else
      let below := t.preorder (id :: seen) (t.children id)
      id :: below ++ t.preorder (below.reverse ++ id :: seen) rest
termination_by ids => ((t.unseen seen).length, ids.length)
decreasing_by
  · exact Prod.Lex.right _ (by simp)
  · cases hnode : t.node? id with
    | none =>
      rw [children_of_none hnode]
      exact Prod.Lex.right' _ (t.length_unseen_cons_le id seen) (by simp)
    | some node => exact Prod.Lex.left _ _ (length_unseen_cons_lt hnode ‹_›)
  · have hbelow := t.length_unseen_append_le below.reverse (id :: seen)
    exact Prod.Lex.right' _ (Nat.le_trans hbelow (t.length_unseen_cons_le id seen)) (by simp)

theorem preorder_append (ids : List Nat) : ∀ pending, t.preorder seen (ids ++ pending) =
    t.preorder seen ids ++ t.preorder ((t.preorder seen ids).reverse ++ seen) pending := by
  fun_induction preorder t seen ids with
  | case1 => simp
  | case2 seen id rest hid ih =>
    intro pending
    rw [List.cons_append, preorder, if_pos hid, ih]
  | case3 seen id rest hid below _ ih =>
    intro pending
    have hcons : t.preorder seen (id :: (rest ++ pending)) =
        id :: below ++ t.preorder (below.reverse ++ id :: seen) (rest ++ pending) := by
      rw [preorder, if_neg hid]
    rw [List.cons_append, hcons, ih]
    simp

theorem preorder_cons {id : Nat} (hid : id ∉ seen) :
    t.preorder seen (id :: pending) = id :: t.preorder (id :: seen) (t.children id ++ pending) := by
  rw [preorder, if_neg hid, preorder_append, List.cons_append]

/-- A walk is the recursion, over the nodes that there are. -/
theorem walk_eq_preorder : t.walk seen pending = (t.preorder seen pending).filterMap t.node? := by
  fun_induction walk t seen pending with
  | case1 => simp [preorder]
  | case2 seen id pending hid ih => rw [preorder, if_pos hid, ih]
  | case3 seen id pending hid hnone ih =>
    rw [preorder_cons hid, List.filterMap_cons_none hnone, children_of_none hnone, List.nil_append, ih]
  | case4 seen id pending hid node hnode ih =>
    rw [preorder_cons hid, List.filterMap_cons_some hnode, children_of_node? hnode, ih]

theorem preorder_distinct : (t.preorder seen pending).Nodup ∧ ∀ i ∈ t.preorder seen pending, i ∉ seen := by
  fun_induction preorder t seen pending with
  | case1 => simp
  | case2 seen id rest hid ih => exact ih
  | case3 seen id rest hid below ihBelow ihRest =>
    obtain ⟨hbelow, hbelowNew⟩ := ihBelow
    obtain ⟨hrest, hrestNew⟩ := ihRest
    have hdisjoint : ∀ i ∈ id :: below, ∀ j ∈ t.preorder (below.reverse ++ id :: seen) rest, i ≠ j := by
      rintro i hi j hj rfl
      refine hrestNew i hj ?_
      simp only [List.mem_append, List.mem_reverse, List.mem_cons] at hi ⊢
      tauto
    refine ⟨List.nodup_append.mpr ⟨List.nodup_cons.mpr ⟨?_, hbelow⟩, hrest, hdisjoint⟩, fun i hi hseen => ?_⟩
    · exact fun hmem => hbelowNew id hmem List.mem_cons_self
    · rcases List.mem_append.mp hi with hi | hi
      · rcases List.mem_cons.mp hi with rfl | hi
        · exact hid hseen
        · exact hbelowNew i hi (List.mem_cons_of_mem _ hseen)
      · exact hrestNew i hi (List.mem_append_right _ (List.mem_cons_of_mem _ hseen))

/-! ## What can be reached -/

/-- The children of ids that were seen have been seen, or are pending. -/
def Settled (t : Tree) (seen pending : List Nat) : Prop :=
  ∀ id ∈ seen, ∀ child ∈ t.children id, child ∈ seen ∨ child ∈ pending

theorem Settled.mem_of_below (h : t.Settled seen []) {id i : Nat} (hbelow : t.Below id i) (hid : id ∈ seen) :
    i ∈ seen := by
  induction hbelow with
  | refl => exact hid
  | tail _ hchild ih => exact (h _ ih _ hchild).resolve_right List.not_mem_nil

theorem Settled.skip {id : Nat} (h : t.Settled seen (id :: pending)) (hid : id ∈ seen) : t.Settled seen pending := by
  intro i hi child hchild
  rcases h i hi child hchild with hseen | hpending
  · exact .inl hseen
  · rcases List.mem_cons.mp hpending with rfl | hpending
    · exact .inl hid
    · exact .inr hpending

theorem Settled.visit {id : Nat} (h : t.Settled seen (id :: pending)) :
    t.Settled (id :: seen) (t.children id ++ pending) := by
  intro i hi child hchild
  rcases List.mem_cons.mp hi with rfl | hi
  · exact .inr (List.mem_append_left _ hchild)
  · rcases h i hi child hchild with hseen | hpending
    · exact .inl (List.mem_cons_of_mem _ hseen)
    · rcases List.mem_cons.mp hpending with rfl | hpending
      · exact .inl List.mem_cons_self
      · exact .inr (List.mem_append_right _ hpending)

/-- A recursion leaves only what was pending besides. -/
theorem settled_preorder {ids : List Nat} :
    ∀ pending, t.Settled seen (ids ++ pending) → t.Settled ((t.preorder seen ids).reverse ++ seen) pending := by
  fun_induction preorder t seen ids with
  | case1 => exact fun pending h => h
  | case2 seen id rest hid ih => exact fun pending h => ih pending (h.skip hid)
  | case3 seen id rest hid below ihBelow ihRest =>
    intro pending h
    have hbelow := ihBelow (rest ++ pending) h.visit
    simpa using ihRest pending hbelow

theorem mem_preorder_of_mem {ids : List Nat} {i : Nat} (hi : i ∈ ids) : i ∈ seen ∨ i ∈ t.preorder seen ids := by
  fun_induction preorder t seen ids with
  | case1 => exact absurd hi List.not_mem_nil
  | case2 seen id rest hid ih =>
    rcases List.mem_cons.mp hi with rfl | hi
    · exact .inl hid
    · exact ih hi
  | case3 seen id rest hid below _ ih =>
    rcases List.mem_cons.mp hi with rfl | hi
    · exact .inr List.mem_cons_self
    · have hrest := ih hi
      simp only [List.mem_append, List.mem_reverse, List.mem_cons] at hrest ⊢
      tauto

theorem exists_below_of_mem_preorder {ids : List Nat} {i : Nat} (hi : i ∈ t.preorder seen ids) :
    ∃ id ∈ ids, t.Below id i := by
  fun_induction preorder t seen ids with
  | case1 => exact absurd hi List.not_mem_nil
  | case2 seen id rest hid ih =>
    obtain ⟨p, hp, hbelow⟩ := ih hi
    exact ⟨p, List.mem_cons_of_mem _ hp, hbelow⟩
  | case3 seen id rest hid below ihBelow ihRest =>
    rcases List.mem_append.mp hi with hi | hi
    · rcases List.mem_cons.mp hi with rfl | hi
      · exact ⟨i, List.mem_cons_self, .refl⟩
      · obtain ⟨child, hchild, hbelow⟩ := ihBelow hi
        exact ⟨id, List.mem_cons_self, .head hchild hbelow⟩
    · obtain ⟨p, hp, hbelow⟩ := ihRest hi
      exact ⟨p, List.mem_cons_of_mem _ hp, hbelow⟩

theorem mem_preorder {id i : Nat} : i ∈ t.preorder [] [id] ↔ t.Below id i := by
  constructor
  · intro hi
    obtain ⟨p, hp, hbelow⟩ := exists_below_of_mem_preorder hi
    obtain rfl := List.mem_singleton.mp hp
    exact hbelow
  · intro hbelow
    have hsettled : t.Settled ((t.preorder [] [id]).reverse ++ []) [] :=
      settled_preorder [] (by simp [Settled])
    have hid : id ∈ [] ∨ id ∈ t.preorder [] [id] := mem_preorder_of_mem (List.mem_singleton_self id)
    simpa using hsettled.mem_of_below hbelow (by simpa using hid)

theorem mem_subtree {id : Nat} {node : Node} : node ∈ t.subtree id ↔ ∃ i, t.Below id i ∧ t.node? i = some node := by
  simp only [subtree, walk_eq_preorder, List.mem_filterMap, mem_preorder]

theorem kind?_eq_some {id : Nat} {kind : NodeKind} :
    t.kind? id = some kind ↔ ∃ node, t.node? id = some node ∧ node.kind = kind := by
  rw [kind?, Option.map_eq_some_iff]

theorem mem_filterMap_subtree {α : Type} {pick : Node → Option α} {kind : α → NodeKind}
    (hpick : ∀ node a, pick node = some a ↔ node.kind = kind a) {id : Nat} {a : α} :
    a ∈ (t.subtree id).filterMap pick ↔ ∃ i, t.Below id i ∧ t.kind? i = some (kind a) := by
  simp only [List.mem_filterMap, hpick, mem_subtree, kind?_eq_some]
  constructor
  · rintro ⟨node, ⟨i, hbelow, hnode⟩, ha⟩
    exact ⟨i, hbelow, node, hnode, ha⟩
  · rintro ⟨i, hbelow, node, hnode, ha⟩
    exact ⟨node, ⟨i, hbelow, hnode⟩, ha⟩

theorem mem_identifiersIn {id : Nat} {name : String} :
    name ∈ t.identifiersIn id ↔ ∃ i, t.Below id i ∧ t.kind? i = some (.identifier name) :=
  mem_filterMap_subtree fun node name => by split <;> simp_all

theorem mem_literalsIn {id : Nat} {value : Literal} :
    value ∈ t.literalsIn id ↔ ∃ i, t.Below id i ∧ t.kind? i = some (.literal value) :=
  mem_filterMap_subtree fun node value => by split <;> simp_all

/-! ## Rounds -/

/-- Ids that a loop meets in at most `rounds` rounds. A round takes an id off the stack and, if it was not seen, puts
its children there; the loop has ended when the stack is empty. -/
def metWithin (t : Tree) : (rounds : Nat) → (seen stack : List Nat) → Option (List Nat)
  | _, _, [] => some []
  | 0, _, _ :: _ => none
  | rounds + 1, seen, id :: stack =>
    if id ∈ seen then t.metWithin rounds seen stack
    else (t.metWithin rounds (id :: seen) (t.children id ++ stack)).map (id :: ·)

/-- Number of child links in the tree. -/
def linkCount (t : Tree) : Nat := (t.nodes.flatMap Node.children).length

/-- Number of child links of the ids that were not seen. -/
def linksUnseen (t : Tree) (seen : List Nat) : Nat := ((t.unseen seen).flatMap t.children).length

theorem linksUnseen_nil (t : Tree) : t.linksUnseen [] = t.linkCount := by
  rw [linksUnseen, unseen, List.filter_eq_self.mpr (by simp), flatMap_children, linkCount]

theorem linksUnseen_cons {id : Nat} (hid : id ∉ seen) :
    (t.children id).length + t.linksUnseen (id :: seen) = t.linksUnseen seen := by
  have hnodup : (t.unseen seen).Nodup := List.nodup_range.filter _
  have herase : t.unseen (id :: seen) = (t.unseen seen).erase id := by
    rw [unseen_cons, hnodup.erase_eq_filter]
    congr 1
    funext i
    by_cases hi : i = id <;> simp [hi]
  by_cases hmem : id ∈ t.unseen seen
  · have hperm := (List.perm_cons_erase hmem).flatMap_right t.children
    rw [linksUnseen, linksUnseen, herase, hperm.length_eq, List.flatMap_cons, List.length_append]
  · have hnone : t.node? id = none := by
      rw [node?, List.getElem?_eq_none_iff]
      simpa [unseen, hid, size] using hmem
    rw [linksUnseen, linksUnseen, herase, List.erase_of_not_mem hmem, children_of_none hnone, List.length_nil,
      Nat.zero_add]

/-- A loop that may take a round for each id on the stack and each link not yet followed ends, and meets what the
recursion meets. -/
theorem metWithin_eq_preorder {rounds : Nat} (h : pending.length + t.linksUnseen seen ≤ rounds) :
    t.metWithin rounds seen pending = some (t.preorder seen pending) := by
  induction rounds generalizing seen pending with
  | zero =>
    obtain rfl := List.length_eq_zero_iff.mp (by omega : pending.length = 0)
    rw [metWithin, preorder]
  | succ rounds ih =>
    cases pending with
    | nil => rw [metWithin, preorder]
    | cons id pending =>
      rw [List.length_cons] at h
      rw [metWithin]
      split
      · next hid => rw [ih (by omega), preorder, if_pos hid]
      · next hid =>
        have hlinks := linksUnseen_cons (t := t) hid
        rw [ih (by rw [List.length_append]; omega), preorder_cons hid, Option.map_some]

/-! ## Subtrees in order -/

/-- The identifier at an id. -/
def identifier? (t : Tree) (id : Nat) : Option String :=
  match t.kind? id with
  | some (.identifier name) => some name
  | _ => none

/-- The literal at an id. -/
def literal? (t : Tree) (id : Nat) : Option Literal :=
  match t.kind? id with
  | some (.literal value) => some value
  | _ => none

theorem filterMap_subtree {α : Type} {pick : Node → Option α} {pick? : Nat → Option α}
    (hpick : ∀ i, pick? i = (t.node? i).bind pick) (id : Nat) :
    (t.subtree id).filterMap pick = (t.preorder [] [id]).filterMap pick? := by
  obtain rfl : pick? = fun i => (t.node? i).bind pick := funext hpick
  rw [subtree, walk_eq_preorder, List.filterMap_filterMap]

/-- From any id and over any links, the walk is over after one round and one more for each link. It meets each id that
links lead to once, in the order of a depth-first recursion, and what stands at the ids in this order are the
identifiers and the literals of the subtree. -/
theorem subtree_depthFirst (t : Tree) (id : Nat) :
    t.metWithin (1 + t.linkCount) [] [id] = some (t.preorder [] [id]) ∧
      (t.preorder [] [id]).Nodup ∧ (∀ i, i ∈ t.preorder [] [id] ↔ t.Below id i) ∧
      t.identifiersIn id = (t.preorder [] [id]).filterMap t.identifier? ∧
      t.literalsIn id = (t.preorder [] [id]).filterMap t.literal? := by
  have hrounds : [id].length + t.linksUnseen [] ≤ 1 + t.linkCount := by
    rw [linksUnseen_nil]
    exact Nat.le_refl _
  refine ⟨metWithin_eq_preorder hrounds, preorder_distinct.1, fun i => mem_preorder, ?_, ?_⟩
  · refine filterMap_subtree (fun i => ?_) id
    rcases hnode : t.node? i with _ | ⟨kind, _, _⟩
    · simp [identifier?, kind?, hnode]
    · cases kind <;> simp [identifier?, kind?, hnode]
  · refine filterMap_subtree (fun i => ?_) id
    rcases hnode : t.node? i with _ | ⟨kind, _, _⟩
    · simp [literal?, kind?, hnode]
    · cases kind <;> simp [literal?, kind?, hnode]

/-- A node that two others share is met once, as is one that is linked to itself, and a link may lead to no node. -/
example : (Tree.mk [⟨.script, none, [1, 9]⟩, ⟨.and, some 0, [2, 3, 1]⟩, ⟨.not, some 1, [3]⟩,
    ⟨.identifier "A", some 1, []⟩]).metWithin 7 [] [0] = some [0, 1, 2, 3, 9] := by
  decide

end ProximitySearch.Query.Tree
