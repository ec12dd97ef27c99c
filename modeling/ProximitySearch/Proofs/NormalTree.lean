import ProximitySearch.Proofs.Parsing
import ProximitySearch.Proofs.Rendering

/-!
# Normal trees

A tree is well formed if its ids are in pre-order, its links agree and each node has the children that its
kind needs (`Tree.IsWellFormed`). Such a tree is that of an expression, which the pre-order finds node by
node: what is visited below a node makes its operands (`Tree.Visits.exists_layout`). With words that can be
written, it is read back from its text (`Tree.parse_render`).
-/

namespace ProximitySearch.Query

namespace NodeKind

def isComparable : NodeKind → Bool
  | .function .. | .identifier _ | .literal _ => true
  | _ => false

/-- The kinds of children that a node below a script may have. -/
def Admits : NodeKind → List NodeKind → Prop
  | .script, _ => False
  | .and, below => 2 ≤ below.length ∧ .and ∉ below
  | .or, below => 2 ≤ below.length ∧ .or ∉ below
  | .not, below | .delayed, below => below.length = 1
  | .function .., _ => True
  | .comparison _, below => below.length = 2 ∧ ∀ kind ∈ below, kind.isComparable = true
  | .identifier _, below | .literal _, below => below = []

/-- Names are names, identifiers are none of the words that stand for something else, and numbers are finite. -/
def IsWritable : NodeKind → Prop
  | .function space name => IsName space ∧ IsName name
  | .identifier name => IsName name ∧ name ∉ reservedWords
  | .literal (.number x) => x.isNaN = false ∧ x.isInf = false
  | _ => True

instance (kind : NodeKind) (below : List NodeKind) : Decidable (kind.Admits below) :=
  match kind with
  | .script => inferInstanceAs (Decidable False)
  | .and | .or => inferInstanceAs (Decidable (_ ∧ _))
  | .not | .delayed => inferInstanceAs (Decidable (_ = _))
  | .function .. => inferInstanceAs (Decidable True)
  | .comparison _ => inferInstanceAs (Decidable (_ ∧ _))
  | .identifier _ | .literal _ => inferInstanceAs (Decidable (_ = _))

instance (kind : NodeKind) : Decidable kind.IsWritable :=
  match kind with
  | .function .. | .identifier _ | .literal (.number _) => inferInstanceAs (Decidable (_ ∧ _))
  | .script | .and | .or | .not | .delayed | .comparison _ => inferInstanceAs (Decidable True)
  | .literal (.string _) | .literal (.boolean _) | .literal .null => inferInstanceAs (Decidable True)

theorem Admits.exists_isNormal {kind : NodeKind} {es : List Expr} (h : kind.Admits (es.map Expr.kind))
    (hwritable : kind.IsWritable)
    (hread : ∀ x, kind = .literal (.number x) → Decimal.readFloat? (numberText x) = some x)
    (hes : ∀ e ∈ es, e.IsNormal reservedWords) :
    ∃ e : Expr, e.kind = kind ∧ e.operands = es ∧ e.IsNormal reservedWords := by
  cases kind with
  | script => exact h.elim
  | and =>
    obtain ⟨hlen, hflat⟩ := h
    refine ⟨.and es, rfl, rfl, .and (by simpa using hlen) (fun e he => ?_) hes⟩
    cases e with
    | and operands => exact absurd (List.mem_map.mpr ⟨_, he, rfl⟩) hflat
    | _ => rfl
  | or =>
    obtain ⟨hlen, hflat⟩ := h
    refine ⟨.or es, rfl, rfl, .or (by simpa using hlen) (fun e he => ?_) hes⟩
    cases e with
    | or operands => exact absurd (List.mem_map.mpr ⟨_, he, rfl⟩) hflat
    | _ => rfl
  | not =>
    obtain ⟨e, rfl⟩ := List.length_eq_one_iff.mp ((List.length_map _).symm.trans h)
    exact ⟨.not e, rfl, rfl, .not (hes e (by simp))⟩
  | delayed =>
    obtain ⟨e, rfl⟩ := List.length_eq_one_iff.mp ((List.length_map _).symm.trans h)
    exact ⟨.delayed e, rfl, rfl, .delayed (hes e (by simp))⟩
  | function space name => exact ⟨.function space name es, rfl, rfl, .function hwritable.1 hwritable.2 hes⟩
  | comparison op =>
    obtain ⟨hlen, hcomparable⟩ := h
    obtain ⟨left, right, rfl⟩ := List.length_eq_two.mp ((List.length_map _).symm.trans hlen)
    have hkind : ∀ e : Expr, e.kind.isComparable = true → e.isComparable = true := by
      intro e he
      cases e <;> first | rfl | exact he
    exact ⟨.comparison op left right, rfl, rfl, .comparison (hkind left (hcomparable _ (by simp)))
      (hkind right (hcomparable _ (by simp))) (hes left (by simp)) (hes right (by simp))⟩
  | identifier name =>
    obtain rfl := List.map_eq_nil_iff.mp h
    exact ⟨.identifier name, rfl, rfl, .identifier hwritable.1 hwritable.2⟩
  | literal value =>
    obtain rfl := List.map_eq_nil_iff.mp h
    refine ⟨.literal value, rfl, rfl, .literal ?_⟩
    cases value with
    | number x => exact ⟨hwritable.1, hwritable.2, hread x rfl⟩
    | _ => trivial

end NodeKind

namespace Tree

/-! ## Pre-order -/

/-- A walk from the ids in `pending`, each with what is below it before the next, meets the ids `visited`. -/
inductive Visits (t : Tree) : (pending visited : List Nat) → Prop
  | nil : Visits t [] []
  | cons {id : Nat} {node : Node} {pending visited : List Nat} (hnode : t.node? id = some node)
      (hrest : Visits t (node.children ++ pending) visited) : Visits t (id :: pending) (id :: visited)

/-- The ids are in pre-order, children and parents name each other, the root is a script over a single node,
and all other nodes have the children that they need. -/
structure IsWellFormed (t : Tree) : Prop where
  preorder : t.Visits [root] (List.range t.size)
  linked : ∀ id < t.size, ∀ child ∈ t.children id, t.parent? child = some id
  script : ∃ child, t.node? root = some ⟨.script, none, [child]⟩
  admits : ∀ node ∈ t.nodes.tail, node.kind.Admits (node.children.filterMap t.kind?)

variable {t : Tree}

theorem Layout.filterMap_kind? {parent id next : Nat} {es : List Expr} {ids : List Nat}
    (h : t.Layout parent id es ids next) : ids.filterMap t.kind? = es.map Expr.kind := by
  have hkinds := congrArg (List.filterMap fun kind => kind) h.kinds
  simpa [List.filterMap_map, Function.comp_def] using hkinds

theorem IsWellFormed.parent?_of_mem (h : t.IsWellFormed) {id child : Nat} {node : Node}
    (hnode : t.node? id = some node) (hchild : child ∈ node.children) : t.parent? child = some id := by
  obtain ⟨hlt, -⟩ := List.getElem?_eq_some_iff.mp hnode
  refine h.linked id hlt child ?_
  simpa [children, hnode] using hchild

/-- What a walk visits, from ids below the same parent, are expressions that are laid out there. -/
theorem Visits.exists_layout (hform : t.IsWellFormed) (hwritable : ∀ node ∈ t.nodes, node.kind.IsWritable)
    (hread : ∀ node ∈ t.nodes, ∀ x, node.kind = .literal (.number x) → Decimal.readFloat? (numberText x) = some x)
    (count : Nat) {parent id : Nat} {ids pending : List Nat} (h : t.Visits (ids ++ pending) (List.range' id count))
    (hid : 0 < id) (hparent : ∀ i ∈ ids, t.parent? i = some parent) :
    ∃ es next, t.Layout parent id es ids next ∧ t.Visits pending (List.range' next (id + count - next)) ∧
      next ≤ id + count ∧ ∀ e ∈ es, e.IsNormal reservedWords := by
  -- both below the first id and behind it fewer ids are left to visit
  induction count using Nat.strongRecOn generalizing parent id ids pending with
  | _ count ih =>
    cases ids with
    | nil => exact ⟨[], id, .nil, by simpa using h, by omega, by simp⟩
    | cons i ids =>
      generalize hvisited : List.range' id count = visited at h
      cases h with
      | @cons _ node _ visited hnode hrest =>
        obtain ⟨count, rfl⟩ : ∃ n, count = n + 1 := Nat.exists_eq_succ_of_ne_zero (by rintro rfl; simp at hvisited)
        rw [List.range'_succ] at hvisited
        obtain ⟨rfl, rfl⟩ := List.cons.inj hvisited
        obtain ⟨below, next, hbelow, hrest, hnext, hnormal⟩ :=
          ih count (Nat.lt_succ_self _) hrest (Nat.succ_pos _) fun child hchild => hform.parent?_of_mem hnode hchild
        have hle := hbelow.le
        obtain ⟨others, last, hothers, hrest, hlast, hnormalOthers⟩ :=
          ih (id + 1 + count - next) (by omega) hrest (by omega) fun j hj => hparent j (List.mem_cons_of_mem _ hj)
        have hadmits := hform.admits node <| by
          obtain ⟨id, rfl⟩ := Nat.exists_eq_succ_of_ne_zero (Nat.ne_of_gt hid)
          exact List.mem_of_getElem? (List.getElem?_tail.trans hnode)
        rw [hbelow.filterMap_kind?] at hadmits
        have hmem : node ∈ t.nodes := List.mem_of_getElem? hnode
        obtain ⟨e, hkind, hoperands, he⟩ :=
          hadmits.exists_isNormal (hwritable node hmem) (hread node hmem) hnormal
        refine ⟨e :: others, last, .cons ?_ (by rwa [hoperands]) hothers, ?_, by omega, ?_⟩
        · have hlink : (t.node? id).bind Node.parent = some parent := hparent id (by simp)
          rw [hnode, Option.bind_some] at hlink
          rw [hnode, hkind, ← hlink]
        · rwa [show id + (count + 1) - last = next + (id + 1 + count - next) - last by omega]
        · exact List.forall_mem_cons.mpr ⟨he, hnormalOthers⟩

/-- A well-formed tree of words that can be written is that of a normal expression. -/
theorem IsWellFormed.exists_expr (hform : t.IsWellFormed) (hwritable : ∀ node ∈ t.nodes, node.kind.IsWritable)
    (hread : ∀ node ∈ t.nodes, ∀ x, node.kind = .literal (.number x) → Decimal.readFloat? (numberText x) = some x) :
    ∃ e : Expr, e.IsNormal reservedWords ∧ t.node? root = some ⟨.script, none, [1]⟩ ∧
      t.Layout root 1 [e] [1] t.size := by
  obtain ⟨child, hscript⟩ := hform.script
  obtain ⟨hpos, -⟩ := List.getElem?_eq_some_iff.mp hscript
  have hvisits := hform.preorder
  rw [List.range_eq_range', show t.size = (t.size - 1) + 1 from (Nat.sub_add_cancel hpos).symm, List.range'_succ]
    at hvisits
  cases hvisits with
  | cons hnode hrest =>
    obtain rfl := Option.some.inj (hscript.symm.trans hnode)
    obtain ⟨es, next, hlayout, hdone, hnext, hnormal⟩ := Visits.exists_layout hform hwritable hread (t.size - 1)
      hrest Nat.zero_lt_one fun i hi => hform.parent?_of_mem hscript hi
    generalize hleft : List.range' next (1 + (t.size - 1) - next) = left at hdone
    cases hdone
    have hlast := List.range'_eq_nil_iff.mp hleft
    obtain ⟨e, rfl⟩ := List.length_eq_one_iff.mp (hlayout.length_ids.symm.trans rfl)
    obtain rfl : next = t.size := by
      unfold size at *
      omega
    have hchild : child = 1 := by
      cases hlayout
      rfl
    subst hchild
    exact ⟨e, hnormal e (by simp), hscript, hlayout⟩

/-- Parsing undoes rendering: a well-formed tree of words that can be written has a text, and the text's
tree is that tree, with the same ids. -/
theorem parse_render (hform : t.IsWellFormed) (hwritable : ∀ node ∈ t.nodes, node.kind.IsWritable)
    (hread : ∀ node ∈ t.nodes, ∀ x, node.kind = .literal (.number x) → Decimal.readFloat? (numberText x) = some x) :
    ∃ text, t.render? = some text ∧ parse text = .ok t := by
  obtain ⟨e, he, hscript, hlayout⟩ := hform.exists_expr hwritable hread
  refine ⟨String.ofList e.text, render?_of_layout hscript hlayout, ?_⟩
  rw [parse, Expr.parse?_text he, eq_ofExpr hscript hlayout]

/-- The tree of `!(TITLE == 'it\'s') && ((_Delayed_ = true) && (content:within(TEXT, 3.5)))`. -/
def delayedQuery : Tree := ⟨[
  ⟨.script, none, [1]⟩,
  ⟨.and, some 0, [2, 6]⟩,
  ⟨.not, some 1, [3]⟩,
  ⟨.comparison .eq, some 2, [4, 5]⟩,
  ⟨.identifier "TITLE", some 3, []⟩,
  ⟨.literal (.string "it's"), some 3, []⟩,
  ⟨.delayed, some 1, [7]⟩,
  ⟨.function "content" "within", some 6, [8, 9]⟩,
  ⟨.identifier "TEXT", some 7, []⟩,
  ⟨.literal (.number 3.5), some 7, []⟩]⟩

theorem isWellFormed_delayedQuery : delayedQuery.IsWellFormed where
  preorder := .cons rfl <| .cons rfl <| .cons rfl <| .cons rfl <| .cons rfl <| .cons rfl <| .cons rfl <| .cons rfl <|
    .cons rfl <| .cons rfl .nil
  linked := by decide
  script := ⟨1, rfl⟩
  admits := by decide

theorem parse_render_delayedQuery :
    delayedQuery.IsWellFormed ∧ (∀ node ∈ delayedQuery.nodes, node.kind.IsWritable) ∧
      (∀ node ∈ delayedQuery.nodes, ∀ x, node.kind = .literal (.number x) →
        Decimal.readFloat? (numberText x) = some x) ∧
      ∃ text, delayedQuery.render? = some text ∧ parse text = .ok delayedQuery := by
  have hwritable : ∀ node ∈ delayedQuery.nodes, node.kind.IsWritable := by decide +kernel
  have hread : ∀ node ∈ delayedQuery.nodes, ∀ x, node.kind = .literal (.number x) →
      Decimal.readFloat? (numberText x) = some x := by
    have hnumber : Decimal.readFloat? (numberText 3.5) = some 3.5 := by decide +kernel
    simp [delayedQuery, hnumber]
  exact ⟨isWellFormed_delayedQuery, hwritable, hread, parse_render isWellFormed_delayedQuery hwritable hread⟩

end Tree

end ProximitySearch.Query
