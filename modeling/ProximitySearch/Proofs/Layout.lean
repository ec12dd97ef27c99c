import ProximitySearch.Query

/-!
# Expressions in a tree

Expressions are laid out in a tree in pre-order: a node, what is below its first child, what is below its
second, and so on (`Tree.Layout`). A tree is determined by what is laid out in it (`Tree.Layout.unique`),
and adding expressions to a tree lays them out behind what was there (`Tree.exists_layout_insertAll`).
-/

namespace ProximitySearch.Query

namespace Expr

def kind : Expr → NodeKind
  | .and _ => .and
  | .or _ => .or
  | .not _ => .not
  | .delayed _ => .delayed
  | .function space name _ => .function space name
  | .comparison op _ _ => .comparison op
  | .identifier name => .identifier name
  | .literal value => .literal value

/-- The expressions below the node of an expression. -/
def operands : Expr → List Expr
  | .and operands | .or operands | .function _ _ operands => operands
  | .not e | .delayed e => [e]
  | .comparison _ left right => [left, right]
  | .identifier _ | .literal _ => []

theorem sizeOf_operands_lt (e : Expr) : sizeOf e.operands < sizeOf e + 2 := by
  cases e with
  | comparison op left right => cases op <;> simp [operands] <;> omega
  | _ => simp [operands] <;> omega

/-- Induction over lists of expressions, along what is below the first and along the others. -/
@[elab_as_elim]
theorem forest_induction {motive : List Expr → Prop} (nil : motive [])
    (cons : ∀ e others, motive e.operands → motive others → motive (e :: others)) : ∀ es, motive es
  | [] => nil
  | e :: others => cons e others (forest_induction nil cons e.operands) (forest_induction nil cons others)
termination_by es => sizeOf es
decreasing_by
  · have hbelow := sizeOf_operands_lt e
    have hothers : 0 < sizeOf others := by
      cases others with
      | nil => exact Nat.one_pos
      | cons other others =>
        rw [List.cons.sizeOf_spec]
        omega
    simp only [List.cons.sizeOf_spec]
    omega
  · simp only [List.cons.sizeOf_spec]
    omega

@[elab_as_elim]
theorem operands_induction {motive : Expr → Prop} (step : ∀ e, (∀ d ∈ e.operands, motive d) → motive e) (e : Expr) :
    motive e := by
  have hall (es : List Expr) : ∀ e ∈ es, motive e := by
    induction es using forest_induction with
    | nil => simp
    | cons e others ihbelow ihothers => exact List.forall_mem_cons.mpr ⟨step e ihbelow, ihothers⟩
  exact hall [e] e (by simp)

/-- A property of an expression and of all that is below it. -/
inductive Everywhere (P : Expr → Prop) : Expr → Prop
  | intro {e : Expr} (here : P e) (below : ∀ d ∈ e.operands, Everywhere P d) : Everywhere P e

end Expr

namespace Tree

variable {t t' : Tree}

/-- Expressions below `parent` have the nodes from `id` on, up to `next`: their own ids are `ids`, and what
is below one of them comes before the next. -/
inductive Layout (t : Tree) : (parent id : Nat) → List Expr → (ids : List Nat) → (next : Nat) → Prop
  | nil {parent id : Nat} : Layout t parent id [] [] id
  | cons {parent id next last : Nat} {e : Expr} {others : List Expr} {below ids : List Nat}
      (hnode : t.node? id = some ⟨e.kind, some parent, below⟩) (hbelow : Layout t id (id + 1) e.operands below next)
      (hothers : Layout t parent next others ids last) : Layout t parent id (e :: others) (id :: ids) last

namespace Layout

variable {parent id next : Nat} {es : List Expr} {ids : List Nat}

theorem le (h : t.Layout parent id es ids next) : id ≤ next := by
  induction h with
  | nil => exact Nat.le_refl _
  | cons hnode hbelow hothers ihbelow ihothers => omega

theorem congr (h : t.Layout parent id es ids next) (hsame : ∀ i, id ≤ i → i < next → t'.node? i = t.node? i) :
    t'.Layout parent id es ids next := by
  induction h with
  | nil => exact .nil
  | @cons parent id mid last e others below ids hnode hbelow hothers ihbelow ihothers =>
    have hmid := hbelow.le
    have hlast := hothers.le
    refine .cons ?_ (ihbelow fun i hi hlt => hsame i (by omega) (by omega))
      (ihothers fun i hi hlt => hsame i (by omega) hlt)
    rw [hsame id (Nat.le_refl _) (by omega), hnode]

theorem kinds (h : t.Layout parent id es ids next) : ids.map t.kind? = es.map fun e => some e.kind := by
  induction h with
  | nil => rfl
  | cons hnode hbelow hothers ihbelow ihothers =>
    rw [List.map_cons, List.map_cons, ihothers, kind?, hnode]
    rfl

theorem length_ids (h : t.Layout parent id es ids next) : ids.length = es.length := by
  have := congrArg List.length h.kinds
  simpa using this

theorem parent?_of_mem (h : t.Layout parent id es ids next) : ∀ i ∈ ids, t.parent? i = some parent := by
  induction h with
  | nil => simp
  | cons hnode hbelow hothers ihbelow ihothers =>
    exact List.forall_mem_cons.mpr ⟨by simp [parent?, hnode], ihothers⟩

theorem exists_expr {P : Expr → Prop} (h : t.Layout parent id es ids next) (hP : ∀ e ∈ es, e.Everywhere P) {i : Nat}
    (hlow : id ≤ i) (hhigh : i < next) :
    ∃ e above below last, P e ∧ t.node? i = some ⟨e.kind, some above, below⟩ ∧
      t.Layout i (i + 1) e.operands below last := by
  induction h with
  | nil => exact absurd hlow (Nat.not_le_of_lt hhigh)
  | @cons parent id mid last e others below ids hnode hbelow hothers ihbelow ihothers =>
    obtain ⟨⟨he, hoperands⟩, hothersP⟩ := List.forall_mem_cons.mp hP
    rcases Nat.eq_or_lt_of_le hlow with rfl | hlow
    · exact ⟨e, parent, below, mid, he, hnode, hbelow⟩
    · rcases Nat.lt_or_ge i mid with hmid | hmid
      · exact ihbelow hoperands hlow hmid
      · exact ihothers hothersP hmid hhigh

theorem unique {ids' : List Nat} {next' : Nat} (h : t.Layout parent id es ids next)
    (h' : t'.Layout parent id es ids' next') :
    ids = ids' ∧ next = next' ∧ ∀ i, id ≤ i → i < next → t.node? i = t'.node? i := by
  induction h generalizing ids' next' with
  | nil =>
    cases h' with
    | nil => exact ⟨rfl, rfl, fun i hi hlt => absurd hi (Nat.not_le_of_lt hlt)⟩
  | @cons parent id mid last e others below ids hnode hbelow hothers ihbelow ihothers =>
    cases h' with
    | cons hnode' hbelow' hothers' =>
      obtain ⟨rfl, rfl, hsameBelow⟩ := ihbelow hbelow'
      obtain ⟨rfl, rfl, hsameOthers⟩ := ihothers hothers'
      refine ⟨rfl, rfl, fun i hi hlt => ?_⟩
      rcases Nat.lt_or_ge i mid with hmid | hmid
      · rcases Nat.eq_or_lt_of_le hi with rfl | hi
        · rw [hnode, hnode']
        · exact hsameBelow i hi hmid
      · exact hsameOthers i hmid hlt

end Layout

/-! ## Adding expressions -/

theorem insert_eq (t : Tree) (parent : Nat) (e : Expr) :
    t.insert parent e = (t.addNode parent e.kind).insertAll t.size e.operands := by
  cases e with
  | comparison op left right => simp only [insert, Expr.kind, Expr.operands, insertAll]
  | _ => simp only [insert, Expr.kind, Expr.operands, insertAll]

theorem node?_addNode_of_lt {parent i : Nat} (kind : NodeKind) (hi : i < t.size) :
    (t.addNode parent kind).node? i =
      if i = parent then (t.node? i).map fun node => { node with children := node.children ++ [t.size] }
      else t.node? i := by
  unfold size at hi
  simp only [addNode, node?, List.getElem?_modify, List.getElem?_append_left hi, eq_comm]
  split <;> simp

theorem node?_addNode_size {parent : Nat} (kind : NodeKind) (hparent : parent < t.size) :
    (t.addNode parent kind).node? t.size = some ⟨kind, some parent, []⟩ := by
  unfold size at hparent
  simp only [addNode, node?, size, List.getElem?_modify, if_neg (Nat.ne_of_lt hparent), List.getElem?_concat_length]
  rfl

/-- Expressions that are added come behind the nodes of the tree, whose links stay, but for the children of
the parent. -/
theorem exists_layout_insertAll (es : List Expr) {t : Tree} {parent : Nat} (hparent : parent < t.size) :
    ∃ ids, (t.insertAll parent es).Layout parent t.size es ids (t.insertAll parent es).size ∧
      ∀ i < t.size, (t.insertAll parent es).node? i =
        if i = parent then (t.node? i).map fun node => { node with children := node.children ++ ids }
        else t.node? i := by
  induction es using Expr.forest_induction generalizing t parent with
  | nil => exact ⟨[], .nil, fun i hi => by simp [insertAll]⟩
  | cons e others ihbelow ihothers =>
    rw [insertAll, insert_eq]
    -- `u` holds the first expression with what is below it, and the others come behind it
    obtain ⟨below, hbelow, hkept⟩ := @ihbelow (t.addNode parent e.kind) t.size (by simp)
    generalize (t.addNode parent e.kind).insertAll t.size e.operands = u at hbelow hkept ⊢
    rw [size_addNode] at hbelow hkept
    have hsize : t.size < u.size := hbelow.le
    obtain ⟨ids, hothers, hkept'⟩ := @ihothers u parent (Nat.lt_trans hparent hsize)
    have hlinked : (u.insertAll parent others).node? t.size = some ⟨e.kind, some parent, below⟩ := by
      rw [hkept' t.size hsize, if_neg (Nat.ne_of_gt hparent), hkept t.size (Nat.lt_succ_self _), if_pos rfl,
        node?_addNode_size _ hparent]
      rfl
    refine ⟨t.size :: ids, .cons hlinked (hbelow.congr fun i hi hlt => ?_) hothers, fun i hi => ?_⟩
    · rw [hkept' i hlt, if_neg (by omega)]
    · rw [hkept' i (by omega), hkept i (by omega), if_neg (Nat.ne_of_lt hi), node?_addNode_of_lt _ hi]
      by_cases hi : i = parent
      · simp [hi, Function.comp_def]
      · simp [hi]

theorem layout_ofExpr (e : Expr) :
    (ofExpr e).node? root = some ⟨.script, none, [1]⟩ ∧ (ofExpr e).Layout root 1 [e] [1] (ofExpr e).size := by
  obtain ⟨ids, hlayout, hkept⟩ := @exists_layout_insertAll [e] empty root (by decide)
  have hids : ids = [1] := by
    cases hlayout with
    | cons hnode hbelow hothers =>
      cases hothers
      rfl
  subst hids
  rw [insertAll, insertAll] at hlayout hkept
  exact ⟨hkept root (by decide), hlayout⟩

/-- Nothing but the tree of an expression is a script with the expression laid out below it. -/
theorem eq_ofExpr {e : Expr} (hscript : t.node? root = some ⟨.script, none, [1]⟩)
    (h : t.Layout root 1 [e] [1] t.size) : t = ofExpr e := by
  obtain ⟨hscript', hlayout⟩ := layout_ofExpr e
  obtain ⟨-, hsize, hsame⟩ := h.unique hlayout
  have hnodes : t.nodes = (ofExpr e).nodes := by
    refine List.ext_getElem? fun i => ?_
    rcases Nat.lt_or_ge i t.size with hi | hi
    · rcases Nat.eq_zero_or_pos i with rfl | hpos
      · exact hscript.trans hscript'.symm
      · exact hsame i hpos hi
    · rw [List.getElem?_eq_none hi, List.getElem?_eq_none (Nat.le_trans (Nat.le_of_eq hsize.symm) hi)]
  cases t
  exact congrArg Tree.mk hnodes

end Tree

end ProximitySearch.Query
