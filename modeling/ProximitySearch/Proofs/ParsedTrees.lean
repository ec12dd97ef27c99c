import ProximitySearch.Proofs.NormalTree
import ProximitySearch.Proofs.ParsedExpressions
import ProximitySearch.Proofs.Subtrees

/-!
# Parsed trees

The tree of any query text is well formed (`Tree.isWellFormed_ofExpr`), since a parser builds flat expressions and
these are laid out in pre-order. In a well-formed tree the children lists together are all ids but the root's, each
once (`Tree.IsWellFormed.perm_children`): a walk that visits each id once takes it from one list. Children come after
their parents (`Tree.IsWellFormed.lt_of_mem_children`).
-/

namespace ProximitySearch.Query

theorem Expr.IsShaped.admits {e : Expr} (h : e.IsShaped) : e.kind.Admits (e.operands.map Expr.kind) := by
  cases e with
  | and operands =>
    refine ⟨by simpa [Expr.operands] using h.1, fun hmem => ?_⟩
    obtain ⟨d, hd, hkind⟩ := List.mem_map.mp hmem
    have hflat := h.2 d hd
    cases d <;> simp_all [Expr.kind, isAnd]
  | or operands =>
    refine ⟨by simpa [Expr.operands] using h.1, fun hmem => ?_⟩
    obtain ⟨d, hd, hkind⟩ := List.mem_map.mp hmem
    have hflat := h.2 d hd
    cases d <;> simp_all [Expr.kind, isOr]
  | not e => rfl
  | delayed e => rfl
  | function space name arguments => trivial
  | comparison op left right =>
    obtain ⟨hleft, hright⟩ := h
    refine ⟨rfl, List.forall_mem_cons.mpr ⟨?_, List.forall_mem_singleton.mpr ?_⟩⟩
    · cases left <;> first | rfl | exact hleft
    · cases right <;> first | rfl | exact hright
  | identifier name => rfl
  | literal value => rfl

namespace Tree

variable {t : Tree}

/-! ## What is laid out -/

/-- A walk meets what is laid out in the order of the ids. -/
theorem Layout.visits {parent id next : Nat} {es : List Expr} {ids : List Nat} (h : t.Layout parent id es ids next)
    {pending visited : List Nat} (hrest : t.Visits pending visited) :
    t.Visits (ids ++ pending) (List.range' id (next - id) ++ visited) := by
  induction h generalizing pending visited with
  | nil => simpa using hrest
  | @cons parent id mid last e others below ids hnode hbelow hothers ihbelow ihothers =>
    have hmid := hbelow.le
    have hlast := hothers.le
    have hrange : List.range' id (last - id) =
        id :: (List.range' (id + 1) (mid - (id + 1)) ++ List.range' mid (last - mid)) := by
      obtain ⟨count, rfl⟩ := Nat.exists_eq_add_of_le hmid
      obtain ⟨count', rfl⟩ := Nat.exists_eq_add_of_le hlast
      rw [show id + 1 + count + count' - id = count + count' + 1 by omega, List.range'_succ, Nat.add_sub_cancel_left,
        Nat.add_sub_cancel_left, List.range'_append_1]
    rw [hrange, List.cons_append, List.cons_append, List.append_assoc]
    exact .cons hnode (ihbelow (ihothers hrest))

theorem isWellFormed_ofExpr {e : Expr} (h : e.IsBuilt) : (ofExpr e).IsWellFormed := by
  obtain ⟨hscript, hlayout⟩ := layout_ofExpr e
  have hsize : 1 ≤ (ofExpr e).size := hlayout.le
  -- behind the script each id is that of an expression with its operands below it
  have hexpr (i : Nat) (hi : i ≠ root) (hlt : i < (ofExpr e).size) :=
    hlayout.exists_expr (P := Expr.IsShaped) (by simpa using h) (Nat.one_le_iff_ne_zero.mpr hi) hlt
  constructor
  case preorder =>
    have hvisits := hlayout.visits .nil
    rw [List.append_nil, List.append_nil] at hvisits
    rw [List.range_eq_range', show (ofExpr e).size = ((ofExpr e).size - 1) + 1 by omega, List.range'_succ]
    exact .cons hscript (by simpa using hvisits)
  case linked =>
    intro id hid child hchild
    by_cases hroot : id = root
    · subst hroot
      obtain rfl : child = 1 := by simpa [children, hscript] using hchild
      exact hlayout.parent?_of_mem 1 (by simp)
    · obtain ⟨d, above, below, last, -, hnode, hbelow⟩ := hexpr id hroot hid
      refine hbelow.parent?_of_mem child ?_
      simpa [children, hnode] using hchild
  case script => exact ⟨1, hscript⟩
  case admits =>
    intro node hmem
    obtain ⟨i, hnode⟩ := List.mem_iff_getElem?.mp hmem
    rw [List.getElem?_tail] at hnode
    obtain ⟨hlt, -⟩ := List.getElem?_eq_some_iff.mp hnode
    obtain ⟨d, above, below, last, hd, hnode', hbelow⟩ := hexpr (i + 1) (Nat.succ_ne_zero i) hlt
    obtain rfl := Option.some.inj (hnode'.symm.trans hnode)
    rw [hbelow.filterMap_kind?]
    exact hd.admits

/-! ## Well-formed trees -/

theorem Visits.perm {pending visited : List Nat} (h : t.Visits pending visited) :
    visited.Perm (pending ++ visited.flatMap t.children) := by
  induction h with
  | nil => simp
  | @cons id node pending visited hnode hrest ih =>
    have hchildren : t.children id = node.children := by simp [children, hnode]
    rw [List.flatMap_cons, hchildren, List.cons_append]
    have hswap : (node.children ++ pending).Perm (pending ++ node.children) := List.perm_append_comm
    refine .cons id (ih.trans ?_)
    rw [← List.append_assoc]
    exact hswap.append_right (visited.flatMap t.children)

theorem Visits.lt_of_mem_children {pending visited : List Nat} (h : t.Visits pending visited)
    (hascending : visited.Pairwise (· < ·)) : ∀ id ∈ visited, ∀ child ∈ t.children id, id < child := by
  induction h with
  | nil => simp
  | @cons id node pending visited hnode hrest ih =>
    obtain ⟨hfirst, hascending⟩ := List.pairwise_cons.mp hascending
    refine List.forall_mem_cons.mpr ⟨fun child hchild => hfirst child ?_, ih hascending⟩
    have hbelow : child ∈ node.children := by simpa [children, hnode] using hchild
    exact hrest.perm.mem_iff.mpr (by simp [hbelow])

namespace IsWellFormed

theorem perm_children (h : t.IsWellFormed) : (t.nodes.flatMap Node.children).Perm (List.range' 1 (t.size - 1)) := by
  obtain ⟨child, hscript⟩ := h.script
  obtain ⟨hpos, -⟩ := List.getElem?_eq_some_iff.mp hscript
  have hsize : t.size = (t.size - 1) + 1 := (Nat.sub_add_cancel hpos).symm
  have hperm := h.preorder.perm
  rw [flatMap_children, List.range_eq_range', hsize, List.range'_succ] at hperm
  exact hperm.cons_inv.symm

theorem lt_of_mem_children (h : t.IsWellFormed) {id child : Nat} (hid : id < t.size) (hchild : child ∈ t.children id) :
    id < child :=
  h.preorder.lt_of_mem_children List.pairwise_lt_range id (List.mem_range.mpr hid) child hchild

theorem listed_once (h : t.IsWellFormed) {id : Nat} (hid : root < id) (hlt : id < t.size) :
    (t.nodes.flatMap Node.children).count id = 1 ∧
      ∃ parent < id, t.parent? id = some parent ∧ id ∈ t.children parent := by
  have hmem : id ∈ List.range' 1 (t.size - 1) := by
    rw [List.mem_range'_1]
    unfold root at hid
    omega
  have hcount : (t.nodes.flatMap Node.children).count id = 1 := by
    rw [h.perm_children.count_eq, List.Nodup.count List.nodup_range', if_pos hmem]
  refine ⟨hcount, ?_⟩
  obtain ⟨node, hnode, hlisted⟩ := List.mem_flatMap.mp (h.perm_children.mem_iff.mpr hmem)
  obtain ⟨parent, hparent⟩ := List.mem_iff_getElem?.mp hnode
  obtain ⟨hlt', -⟩ := List.getElem?_eq_some_iff.mp hparent
  have hchild : id ∈ t.children parent := by simpa [children, node?, hparent] using hlisted
  exact ⟨parent, h.lt_of_mem_children hlt' hchild, h.linked parent hlt' id hchild, hchild⟩

end IsWellFormed

/-- The tree of a text is well formed, and each of its nodes but the script is listed once, among the children of its
parent, whose id is smaller. -/
theorem isWellFormed_of_parse {text : String} (h : parse text = .ok t) :
    t.IsWellFormed ∧ ∀ id, root < id → id < t.size →
      (t.nodes.flatMap Node.children).count id = 1 ∧
        ∃ parent < id, t.parent? id = some parent ∧ id ∈ t.children parent := by
  unfold parse at h
  split at h
  · next e hparse =>
    obtain rfl := Except.ok.inj h
    have hform := isWellFormed_ofExpr (Expr.isBuilt_of_parse? hparse)
    exact ⟨hform, fun id hid hlt => hform.listed_once hid hlt⟩
  · simp at h

/-- The tree of `A && (B == 'b' && !(C || D))`. -/
def nestedQuery : Tree := ⟨[
  ⟨.script, none, [1]⟩,
  ⟨.and, some 0, [2, 3, 6]⟩,
  ⟨.identifier "A", some 1, []⟩,
  ⟨.comparison .eq, some 1, [4, 5]⟩,
  ⟨.identifier "B", some 3, []⟩,
  ⟨.literal (.string "b"), some 3, []⟩,
  ⟨.not, some 1, [7]⟩,
  ⟨.or, some 6, [8, 9]⟩,
  ⟨.identifier "C", some 7, []⟩,
  ⟨.identifier "D", some 7, []⟩]⟩

theorem isWellFormed_of_parse_nestedQuery : parse "A && (B == 'b' && !(C || D))" = .ok nestedQuery ∧
    nestedQuery.IsWellFormed ∧ ∀ id, root < id → id < nestedQuery.size →
      (nestedQuery.nodes.flatMap Node.children).count id = 1 ∧
        ∃ parent < id, nestedQuery.parent? id = some parent ∧ id ∈ nestedQuery.children parent := by
  have hparse : parse "A && (B == 'b' && !(C || D))" = .ok nestedQuery := by decide +kernel
  exact ⟨hparse, isWellFormed_of_parse hparse⟩

end Tree

end ProximitySearch.Query
