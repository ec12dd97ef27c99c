import Mathlib.Data.List.Nodup
import Mathlib.Data.List.Perm.Subperm
import ProximitySearch.Query.Tree.Walk

/-!
# Negation above a node

A climb goes from a node to its parent, to the parent of that one, and so on, and is cut before a script, before
an id without a node and before an id that it has met (`Tree.Climbs`). Links may be set to anything, so it may
run into any of the three, but it is never longer than the tree (`Tree.Climbs.lt_size`).

A node is negated just if the climb from it meets a negation, a delayed expression or a conjunction with a
delayed member (`Tree.isNegated_iff`). The check goes on past the ids it has met (`Tree.ClimbsPast`) and leaves these
out among the members of a conjunction. None of them is delayed, for there it would have ended, so that makes no
difference (`Tree.negatedAbove_step`).
-/

namespace ProximitySearch.Query.Tree

variable {t : Tree} {seen : List Nat} {id parent count : Nat}

/-! ## The climb -/

/-- The id that is reached from an id by going to the parent `count` times. -/
def ancestor? (t : Tree) (id : Nat) : (count : Nat) → Option Nat
  | 0 => some id
  | count + 1 => (t.ancestor? id count).bind t.parent?

/-- The climb from `id` is not cut within `count` steps: it meets nodes only, no script, and none twice. -/
structure Climbs (t : Tree) (id count : Nat) : Prop where
  plain : ∀ k ≤ count, ∃ i kind, t.ancestor? id k = some i ∧ t.kind? i = some kind ∧ kind ≠ .script
  apart : ∀ k ≤ count, ∀ l < k, t.ancestor? id l ≠ t.ancestor? id k

/-- A climb that goes on after the ids in `seen` were met. -/
structure ClimbsPast (t : Tree) (seen : List Nat) (id count : Nat) : Prop extends t.Climbs id count where
  unmet : ∀ k ≤ count, ∀ i ∈ seen, t.ancestor? id k ≠ some i

/-- A node that negates what is below it. -/
def Negates (t : Tree) (id : Nat) : Prop :=
  t.kind? id = some .not ∨ t.kind? id = some .delayed ∨
    t.kind? id = some .and ∧ ∃ child ∈ t.children id, t.kind? child = some .delayed

theorem ancestor?_succ (hparent : t.parent? id = some parent) (count : Nat) :
    t.ancestor? id (count + 1) = t.ancestor? parent count := by
  induction count with
  | zero => simp [ancestor?, hparent]
  | succ count ih => rw [ancestor?, ih, ancestor?]

theorem climbsPast_nil_iff : t.ClimbsPast [] id count ↔ t.Climbs id count :=
  ⟨fun h => h.toClimbs, fun h => ⟨h, by simp⟩⟩

theorem climbsPast_zero_iff : t.ClimbsPast seen id 0 ↔ id ∉ seen ∧ ∃ kind, t.kind? id = some kind ∧ kind ≠ .script := by
  constructor
  · intro h
    obtain ⟨i, kind, hi, hkind⟩ := h.plain 0 (Nat.le_refl 0)
    obtain rfl := Option.some.inj hi
    exact ⟨fun hid => h.unmet 0 (Nat.le_refl 0) id hid rfl, kind, hkind⟩
  · rintro ⟨hid, kind, hkind⟩
    refine ⟨⟨fun k hk => ?_, fun k hk l hl => by omega⟩, fun k hk i hi heq => ?_⟩
    · obtain rfl := Nat.le_zero.mp hk
      exact ⟨id, kind, rfl, hkind⟩
    · obtain rfl := Nat.le_zero.mp hk
      exact hid (Option.some.inj heq ▸ hi)

theorem ClimbsPast.start (h : t.ClimbsPast seen id count) : t.ClimbsPast seen id 0 where
  plain k hk := h.plain k (by omega)
  apart k hk l hl := by omega
  unmet k hk := h.unmet k (by omega)

theorem climbsPast_succ_iff (hparent : t.parent? id = some parent) :
    t.ClimbsPast seen id (count + 1) ↔ t.ClimbsPast seen id 0 ∧ t.ClimbsPast (id :: seen) parent count := by
  constructor
  · intro h
    refine ⟨h.start, ⟨fun k hk => ?_, fun k hk l hl => ?_⟩, fun k hk i hi => ?_⟩
    · rw [← ancestor?_succ hparent]
      exact h.plain (k + 1) (by omega)
    · rw [← ancestor?_succ hparent, ← ancestor?_succ hparent]
      exact h.apart (k + 1) (by omega) (l + 1) (by omega)
    · rw [← ancestor?_succ hparent]
      rcases List.mem_cons.mp hi with rfl | hi
      · exact (h.apart (k + 1) (by omega) 0 (by omega)).symm
      · exact h.unmet (k + 1) (by omega) i hi
  · rintro ⟨hhere, habove⟩
    refine ⟨⟨fun k hk => ?_, fun k hk l hl => ?_⟩, fun k hk i hi => ?_⟩
    · cases k with
      | zero => exact hhere.plain 0 (Nat.le_refl 0)
      | succ k =>
        rw [ancestor?_succ hparent]
        exact habove.plain k (by omega)
    · obtain ⟨k, rfl⟩ := Nat.exists_eq_add_one.mpr (Nat.zero_lt_of_lt hl)
      rw [ancestor?_succ hparent]
      cases l with
      | zero => exact (habove.unmet k (by omega) id (by simp)).symm
      | succ l =>
        rw [ancestor?_succ hparent]
        exact habove.apart k (by omega) l (by omega)
    · cases k with
      | zero => exact hhere.unmet 0 (Nat.le_refl 0) i hi
      | succ k =>
        rw [ancestor?_succ hparent]
        exact habove.unmet k (by omega) i (List.mem_cons_of_mem id hi)

theorem Climbs.exists_parent (h : t.Climbs id (count + 1)) : ∃ parent, t.parent? id = some parent := by
  obtain ⟨i, -, hi, -⟩ := h.plain 1 (by omega)
  exact ⟨i, hi⟩

theorem exists_node_of_kind? {kind : NodeKind} (h : t.kind? id = some kind) :
    ∃ node, t.node? id = some node ∧ id < t.size := by
  obtain ⟨node, hnode, -⟩ := Option.map_eq_some_iff.mp h
  obtain ⟨hlt, -⟩ := List.getElem?_eq_some_iff.mp hnode
  exact ⟨node, hnode, hlt⟩

theorem Climbs.lt_size (h : t.Climbs id count) : count < t.size := by
  let met := (List.range (count + 1)).map fun k => (t.ancestor? id k).getD 0
  have hmet : ∀ k ≤ count, t.ancestor? id k = some ((t.ancestor? id k).getD 0) := by
    intro k hk
    obtain ⟨i, -, hi, -⟩ := h.plain k hk
    rw [hi, Option.getD_some]
  have hnodup : met.Nodup := by
    refine (List.nodup_map_iff_inj_on List.nodup_range).mpr fun k hk l hl heq => ?_
    have hk := Nat.le_of_lt_succ (List.mem_range.mp hk)
    have hl := Nat.le_of_lt_succ (List.mem_range.mp hl)
    have hsame : t.ancestor? id k = t.ancestor? id l := by rw [hmet k hk, hmet l hl, heq]
    by_contra hne
    rcases Nat.lt_or_gt_of_ne hne with hlt | hlt
    · exact h.apart l hl k hlt hsame
    · exact h.apart k hk l hlt hsame.symm
  have hsubset : met ⊆ List.range t.size := by
    intro i hi
    obtain ⟨k, hk, rfl⟩ := List.mem_map.mp hi
    obtain ⟨i, kind, hi, hkind, -⟩ := h.plain k (Nat.le_of_lt_succ (List.mem_range.mp hk))
    obtain ⟨-, -, hlt⟩ := exists_node_of_kind? hkind
    rw [hi, Option.getD_some]
    exact List.mem_range.mpr hlt
  have hle := (List.subperm_of_subset hnodup hsubset).length_le
  rw [List.length_map, List.length_range, List.length_range] at hle
  omega

/-! ## The check -/

theorem any_unmet_delayed_iff {children : List Nat} (hseen : ∀ i ∈ seen, t.kind? i ≠ some .delayed) :
    (children.any fun child => decide (child ∉ seen) && t.kind? child == some .delayed) = true ↔
      ∃ child ∈ children, t.kind? child = some .delayed := by
  simp only [List.any_eq_true, Bool.and_eq_true, decide_eq_true_eq, beq_iff_eq]
  constructor
  · rintro ⟨child, hchild, -, hdelayed⟩
    exact ⟨child, hchild, hdelayed⟩
  · rintro ⟨child, hchild, hdelayed⟩
    exact ⟨child, hchild, fun hmet => hseen child hmet hdelayed, hdelayed⟩

/-- One step of the check: where the climb goes on, the node negates or the check finds something from its parent. -/
theorem negatedAbove_step (hseen : ∀ i ∈ seen, t.kind? i ≠ some .delayed) :
    t.negatedAbove seen id = true ↔ t.ClimbsPast seen id 0 ∧
      (t.Negates id ∨ ∃ parent, t.parent? id = some parent ∧ t.negatedAbove (id :: seen) parent = true) := by
  rw [climbsPast_zero_iff, negatedAbove]
  by_cases hid : id ∈ seen
  · simp [hid]
  rw [if_neg hid]
  split
  · next hnone => simp [kind?, hnone]
  · next node hnode =>
    obtain ⟨kind, above, below⟩ := node
    have hkind : t.kind? id = some kind := by simp [kind?, hnode]
    have habove : t.parent? id = above := by simp [parent?, hnode]
    have hbelow : t.children id = below := by simp [children, hnode]
    simp only [Negates, hkind, habove, hbelow, Option.some.injEq]
    cases kind with
    | and =>
      have hseen' : ∀ i ∈ id :: seen, t.kind? i ≠ some .delayed :=
        List.forall_mem_cons.mpr ⟨by simp [hkind], hseen⟩
      rw [Bool.or_eq_true, any_unmet_delayed_iff hseen']
      cases above <;> simp [hid]
    | _ => cases above <;> simp [hid]

/-- Past ids that are not delayed, the check finds whether a climb meets a node that negates. -/
theorem negatedAbove_iff (hseen : ∀ i ∈ seen, t.kind? i ≠ some .delayed) :
    t.negatedAbove seen id = true ↔
      ∃ count i, t.ClimbsPast seen id count ∧ t.ancestor? id count = some i ∧ t.Negates i := by
  -- with each id that is met, fewer of the tree are left to meet
  induction hleft : (t.unseen seen).length using Nat.strongRecOn generalizing seen id with
  | _ left ih =>
    rw [negatedAbove_step hseen]
    by_cases hnegates : t.Negates id
    · constructor
      · rintro ⟨hhere, -⟩
        exact ⟨0, id, hhere, rfl, hnegates⟩
      · rintro ⟨count, i, hclimb, -⟩
        exact ⟨hclimb.start, .inl hnegates⟩
    -- the node itself is met next, and it is not delayed
    have habove (hhere : t.ClimbsPast seen id 0) (parent : Nat) : t.negatedAbove (id :: seen) parent = true ↔
        ∃ count i, t.ClimbsPast (id :: seen) parent count ∧ t.ancestor? parent count = some i ∧ t.Negates i := by
      obtain ⟨hid, kind, hkind, -⟩ := climbsPast_zero_iff.mp hhere
      obtain ⟨node, hnode, -⟩ := exists_node_of_kind? hkind
      refine ih _ (hleft ▸ length_unseen_cons_lt hnode hid) ?_ rfl
      exact List.forall_mem_cons.mpr ⟨fun hdelayed => hnegates (.inr (.inl hdelayed)), hseen⟩
    constructor
    · rintro ⟨hhere, hcase⟩
      obtain ⟨parent, hparent, hcheck⟩ := hcase.resolve_left hnegates
      obtain ⟨count, i, hclimb, hi, hfound⟩ := (habove hhere parent).mp hcheck
      exact ⟨count + 1, i, (climbsPast_succ_iff hparent).mpr ⟨hhere, hclimb⟩,
        (ancestor?_succ hparent count).trans hi, hfound⟩
    · rintro ⟨count, i, hclimb, hi, hfound⟩
      cases count with
      | zero => exact absurd (Option.some.inj hi ▸ hfound) hnegates
      | succ count =>
        obtain ⟨parent, hparent⟩ := hclimb.toClimbs.exists_parent
        obtain ⟨hhere, hrest⟩ := (climbsPast_succ_iff hparent).mp hclimb
        rw [ancestor?_succ hparent] at hi
        exact ⟨hhere, .inr ⟨parent, hparent, (habove hhere parent).mpr ⟨count, i, hrest, hi, hfound⟩⟩⟩

/-- A node is negated just if the climb from it, which is no longer than the tree, meets a node that negates. -/
theorem isNegated_iff (t : Tree) (id : Nat) :
    (∀ count, t.Climbs id count → count < t.size) ∧
      (t.isNegated id = true ↔ ∃ count i, t.Climbs id count ∧ t.ancestor? id count = some i ∧ t.Negates i) := by
  refine ⟨fun count h => h.lt_size, ?_⟩
  rw [isNegated, negatedAbove_iff (by simp)]
  simp only [climbsPast_nil_iff]

end ProximitySearch.Query.Tree
