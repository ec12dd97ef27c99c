import ProximitySearch.Cursor
import ProximitySearch.Proofs.Lookup
import ProximitySearch.Proofs.SkipScan

/-!
# Sources that fail

Until one of its calls fails, a source answers as the same source without failures does
(`Source.FollowsUntilFault`, `Stack.follows_healthy`).

Whatever fails, the entries that a walk stands at are entries at the bottom of its stack, and each move on
that succeeds leads to a greater one (`Source.Ascends`, `Stack.exists_ascends`). That bounds the walk after a
seek by the number of the entries, also where failures or a range that is not kept rule out saying which
entries it shows.
-/

namespace ProximitySearch

open Std

/-! ## Following until a failure -/

namespace Source

variable {σ τ : Type}

/-- Calls on `a` that do not fail are calls on `b`, once part of each state is forgotten. -/
structure FollowsUntilFault (a : Source σ) (b : Source τ) (forget : σ → τ) : Prop where
  fresh : b.fresh = forget a.fresh
  top : ∀ s, b.top (forget s) = a.top s
  seek : ∀ range filter s, (a.seek range filter s).fault = none →
    b.seek range filter (forget s) = (a.seek range filter s).map forget
  next : ∀ s, (a.next s).fault = none → b.next (forget s) = (a.next s).map forget
  size : b.size = a.size

theorem followsUntilFault_refl (src : Source σ) : src.FollowsUntilFault src id :=
  ⟨rfl, fun _ => rfl, fun _ _ _ _ => rfl, fun _ _ => rfl, rfl⟩

variable {a : Source σ} {b : Source τ} {forget : σ → τ}

theorem Projects.follows (h : a.Projects b forget) : a.FollowsUntilFault b forget :=
  ⟨h.fresh, h.top, fun range filter s _ => h.seek range filter s, fun s _ => h.next s, h.size⟩

theorem FollowsUntilFault.sought (h : a.FollowsUntilFault b forget) (range : KeyRange) (filter : FamilyFilter) (s : σ)
    {k : Nat} (hfault : ∀ j ≤ k, (a.sought range filter s j).fault = none) :
    b.sought range filter (forget s) k = (a.sought range filter s k).map forget := by
  induction k with
  | zero => exact h.seek range filter s (hfault 0 (Nat.le_refl _))
  | succ k ih =>
    have hlast : (a.next (a.sought range filter s k).state).fault = none := hfault (k + 1) (Nat.le_refl _)
    rw [Source.sought, ih fun j hj => hfault j (Nat.le_succ_of_le hj)]
    exact h.next _ hlast

/-- Failures of the outermost layer are where it stops following. -/
theorem FollowsUntilFault.faulty (h : a.FollowsUntilFault b forget) (plan : FaultPlan) :
    (a.faulty plan).FollowsUntilFault b fun s => forget s.below where
  fresh := h.fresh
  top s := h.top s.below
  seek range filter s hfault := by
    simp only [Source.faulty] at hfault ⊢
    split at hfault
    · simp at hfault
    · next hopen =>
      rw [if_neg hopen, h.seek range filter s.below hfault]
      rfl
  next s hfault := by
    simp only [Source.faulty] at hfault ⊢
    split at hfault
    · simp at hfault
    · next hopen =>
      rw [if_neg hopen, h.next s.below hfault]
      rfl
  size := h.size

theorem FollowsUntilFault.bounded (h : a.FollowsUntilFault b forget) :
    a.bounded.FollowsUntilFault b.bounded fun s => ⟨forget s.below, s.range⟩ := by
  have htop (s : BoundedState σ) : b.boundedTop ⟨forget s.below, s.range⟩ = a.boundedTop s := by
    simp only [boundedTop, h.top]
  refine ⟨?_, htop, fun range filter s hfault => ?_, fun s hfault => ?_, h.size⟩
  · simp only [Source.bounded, h.fresh]
  · simp only [Source.bounded, h.seek range filter s.below hfault, Reply.map]
  · simp only [Source.bounded, htop] at hfault ⊢
    split
    · rfl
    · next hsome =>
      rw [if_neg hsome] at hfault
      simp only [h.next s.below hfault, Reply.map]

/-! ### Skip scans -/

def SkipState.map (forget : σ → τ) (s : SkipState σ) : SkipState τ :=
  ⟨forget s.below, s.range, s.exhausted, s.reseeks⟩

theorem FollowsUntilFault.settle (h : a.FollowsUntilFault b forget) (space : SearchSpace) (family : Bytes)
    (rounds : Nat) (s : SkipState σ) (hfault : (settle a space family rounds s).fault = none) :
    Source.settle b space family rounds (SkipState.map forget s) =
      (Source.settle a space family rounds s).map (SkipState.map forget) := by
  induction rounds generalizing s with
  | zero => rfl
  | succ rounds ih =>
    have hrange : (SkipState.map forget s).range = s.range := rfl
    have hbelow : (SkipState.map forget s).below = forget s.below := rfl
    simp only [Source.settle, hrange, hbelow, h.top] at hfault ⊢
    split
    · rfl
    · next key value htop =>
      simp only [htop] at hfault
      split_ifs at hfault ⊢
      · rfl
      · rfl
      · rfl
      · split at hfault
        · simp at hfault
        · next hseek =>
          rw [h.seek _ _ _ hseek]
          simp only [Reply.map, hseek]
          exact ih _ hfault

theorem FollowsUntilFault.skipScan (h : a.FollowsUntilFault b forget) (space : SearchSpace) (family : Bytes) :
    (a.skipScan space family).FollowsUntilFault (b.skipScan space family) (SkipState.map forget) where
  fresh := by simp only [Source.skipScan, SkipState.map, h.fresh]
  top s := by simp only [Source.skipScan, SkipState.map, h.top]
  seek range filter s hfault := by
    simp only [Source.skipScan] at hfault ⊢
    split
    · rfl
    · next hspace =>
      rw [if_neg hspace] at hfault
      split at hfault
      · simp at hfault
      · next hseek =>
        rw [show (SkipState.map forget s).below = forget s.below from rfl, h.seek _ _ _ hseek]
        simp only [Reply.map, hseek, h.size]
        exact h.settle space family _ _ hfault
  next s hfault := by
    have hstop : ((SkipState.map forget s).exhausted || (b.top (SkipState.map forget s).below).isNone) =
        (s.exhausted || (a.top s.below).isNone) := by
      rw [show (SkipState.map forget s).below = forget s.below from rfl, h.top]
      rfl
    simp only [Source.skipScan, hstop] at hfault ⊢
    split
    · rfl
    · next hopen =>
      rw [if_neg hopen] at hfault
      split at hfault
      · simp at hfault
      · next hnext =>
        rw [show (SkipState.map forget s).below = forget s.below from rfl, h.next _ hnext]
        simp only [Reply.map, hnext, h.size]
        exact h.settle space family _ _ hfault
  size := h.size

end Source

/-! ### Stacks -/

namespace Stack

/-- The same stack without the layers that fail. -/
def healthy : Stack → Stack
  | .list entries => .list entries
  | .overreading entries => .overreading entries
  | .skipScan space family below => .skipScan space family below.healthy
  | .bounded below => .bounded below.healthy
  | .faulty _ below => below.healthy

/-- The state of a walk, without the counts of the layers that fail. -/
def forget : (stack : Stack) → stack.State → stack.healthy.State
  | .list _ => id
  | .overreading _ => id
  | .skipScan _ _ below => Source.SkipState.map below.forget
  | .bounded below => fun s => ⟨below.forget s.below, s.range⟩
  | .faulty _ below => fun s => below.forget s.below

theorem follows_healthy (stack : Stack) : stack.source.FollowsUntilFault stack.healthy.source stack.forget := by
  induction stack with
  | list entries => exact Source.followsUntilFault_refl _
  | overreading entries => exact Source.followsUntilFault_refl _
  | skipScan space family below ih => exact ih.skipScan space family
  | bounded below ih => exact ih.bounded
  | faulty plan below ih => exact ih.faulty plan

end Stack

/-! ## Going up -/

theorem KeyRange.not_beforeStart_of_lt (range : KeyRange) {a b : Key} (ha : range.beforeStart a = false)
    (hlt : compare a b = .lt) : range.beforeStart b = false := by
  by_contra hb
  simp [KeyRange.beforeStart_of_lt hlt (by simpa using hb)] at ha

namespace Source

variable {σ : Type}

/-- In valid states a walk stands at entries from a list, not before the start of the range sought, and a move on leads
to a greater one. -/
structure Ascends (src : Source σ) (entries : Entries) (valid : σ → Prop) : Prop where
  fresh : valid src.fresh
  seek : ∀ range filter s, valid s → valid (src.seek range filter s).state
  next : ∀ s, valid s → valid (src.next s).state
  top_mem : ∀ s, valid s → ∀ e ∈ src.top s, e ∈ entries.toList
  start_le : ∀ range filter s, valid s → (src.seek range filter s).fault = none →
    ∀ e ∈ src.top (src.seek range filter s).state, range.beforeStart e.1 = false
  top_lt : ∀ s, valid s → (src.next s).fault = none →
    ∀ e ∈ src.top s, ∀ d ∈ src.top (src.next s).state, compare e.1 d.1 = .lt
  size_le : entries.size ≤ src.size

/-! ### Lists -/

theorem firstShown_suffix (range : KeyRange) (filter : FamilyFilter) (l : List Entry) :
    firstShown range filter l <:+ l := by
  induction l with
  | nil => exact List.suffix_refl _
  | cons e rest ih =>
    unfold firstShown
    split
    · exact List.nil_suffix
    · split
      · exact List.suffix_refl _
      · exact ih.trans (List.suffix_cons e rest)

/-- What a walk over a list has before it is a part of the list. -/
def IsRest (entries : Entries) (rest : List Entry) : Prop := rest.Sublist entries.toList

theorem IsRest.lt_of_tail {entries : Entries} {rest : List Entry} (h : IsRest entries rest) {e d : Entry}
    (he : e ∈ rest.head?) (hd : d ∈ rest.tail) : compare e.1 d.1 = .lt := by
  cases rest with
  | nil => simp at he
  | cons c rest =>
    obtain rfl : c = e := by simpa using he
    exact (List.pairwise_cons.mp (entries.ascending.sublist h)).1 d hd

theorem not_beforeStart_of_mem {entries : Entries} {range : KeyRange} {e : Entry}
    (h : e ∈ entries.toList.dropWhile fun e => range.beforeStart e.1) : range.beforeStart e.1 = false := by
  rw [dropWhile_beforeStart] at h
  simpa using (List.mem_filter.mp h).2

theorem ofEntries_ascends (entries : Entries) : (ofEntries entries).Ascends entries fun s => IsRest entries s.rest where
  fresh := List.nil_sublist _
  seek _ _ _ _ := ((firstShown_suffix _ _ _).sublist).trans (List.dropWhile_suffix _).sublist
  next _ h := ((firstShown_suffix _ _ _).sublist).trans ((List.tail_sublist _).trans h)
  top_mem _ h _ he := h.mem (List.mem_of_head? he)
  start_le _ _ _ _ _ _ he := not_beforeStart_of_mem ((firstShown_suffix _ _ _).mem (List.mem_of_head? he))
  top_lt _ h _ _ he _ hd := h.lt_of_tail he ((firstShown_suffix _ _ _).mem (List.mem_of_head? hd))
  size_le := Nat.le_refl _

theorem overreading_ascends (entries : Entries) : (overreading entries).Ascends entries (IsRest entries) where
  fresh := List.Sublist.refl _
  seek _ _ _ _ := (List.dropWhile_suffix _).sublist
  next _ h := (List.tail_sublist _).trans h
  top_mem _ h _ he := h.mem (List.mem_of_head? he)
  start_le _ _ _ _ _ _ he := not_beforeStart_of_mem (List.mem_of_head? he)
  top_lt _ h _ _ he _ hd := h.lt_of_tail he (List.mem_of_head? hd)
  size_le := Nat.le_refl _

/-! ### Layers -/

section Layers

variable {below : Source σ} {entries : Entries} {valid : σ → Prop} (h : below.Ascends entries valid)
include h

theorem Ascends.faulty (plan : FaultPlan) : (below.faulty plan).Ascends entries fun s => valid s.below where
  fresh := h.fresh
  seek range filter s hs := by
    simp only [Source.faulty]
    split
    · exact hs
    · exact h.seek range filter s.below hs
  next s hs := by
    simp only [Source.faulty]
    split
    · exact hs
    · exact h.next s.below hs
  top_mem s hs := h.top_mem s.below hs
  start_le range filter s hs hfault := by
    simp only [Source.faulty] at hfault ⊢
    split at hfault
    · simp at hfault
    · next hopen =>
      rw [if_neg hopen]
      exact h.start_le range filter s.below hs hfault
  top_lt s hs hfault := by
    simp only [Source.faulty] at hfault ⊢
    split at hfault
    · simp at hfault
    · next hopen =>
      rw [if_neg hopen]
      exact h.top_lt s.below hs hfault
  size_le := h.size_le

omit h in
theorem mem_boundedTop {s : BoundedState σ} {e : Entry} :
    e ∈ boundedTop below s ↔ ∃ range, s.range = some range ∧ range.contains e.1 = true ∧ e ∈ below.top s.below := by
  simp only [boundedTop, Option.mem_def, Option.bind_eq_some_iff, Option.filter_eq_some_iff, and_comm]

theorem Ascends.bounded : below.bounded.Ascends entries fun s => valid s.below where
  fresh := h.fresh
  seek range filter s hs := h.seek range filter s.below hs
  next s hs := by
    simp only [Source.bounded]
    split
    · exact hs
    · exact h.next s.below hs
  top_mem s hs e he := by
    obtain ⟨_, _, _, htop⟩ := mem_boundedTop.mp he
    exact h.top_mem s.below hs e htop
  start_le range filter s _ _ e he := by
    have he : e ∈ boundedTop below (below.bounded.seek range filter s).state := he
    obtain ⟨_, hrange, hcontains, _⟩ := mem_boundedTop.mp he
    obtain rfl := Option.some.inj hrange
    simpa using (Bool.and_eq_true_iff.mp hcontains).1
  top_lt s hs hfault e he d hd := by
    have hsome : (boundedTop below s).isNone = false := by
      rw [Option.isNone_eq_false_iff]
      exact Option.isSome_of_mem he
    simp only [Source.bounded, hsome, Bool.false_eq_true, if_false] at hfault hd
    obtain ⟨_, _, _, htop⟩ := mem_boundedTop.mp he
    obtain ⟨_, _, _, htop'⟩ := mem_boundedTop.mp hd
    exact h.top_lt s.below hs hfault e htop d htop'
  size_le := h.size_le

theorem Ascends.lt_of_jump (space : SearchSpace) (family : Bytes) {range : KeyRange} {key : Key} {s : σ} (hs : valid s)
    (hfault : (below.seek (range.withStart (space.jumpTarget key)) (.only family) s).fault = none) :
    ∀ e ∈ below.top (below.seek (range.withStart (space.jumpTarget key)) (.only family) s).state,
      compare key e.1 = .lt := by
  intro e he
  have hstart := h.start_le _ _ _ hs hfault e he
  rw [KeyRange.beforeStart_withStart] at hstart
  have hge : (compare (space.jumpTarget key) e.1).isLE := by
    have hswap : compare (space.jumpTarget key) e.1 = (compare e.1 (space.jumpTarget key)).swap :=
      OrientedCmp.eq_swap
    rw [hswap]
    cases hcmp : compare e.1 (space.jumpTarget key) <;> simp_all
  exact TransCmp.lt_of_lt_of_isLE (SearchSpace.lt_jumpTarget space key) hge

/-- A search leads up: what holds of the key it starts from, and of all keys above one that it holds of, holds of
the key that it ends at. -/
theorem Ascends.settle (space : SearchSpace) (family : Bytes) {P : Key → Prop}
    (hup : ∀ a b, P a → compare a b = .lt → P b) (rounds : Nat) {s : SkipState σ} (hs : valid s.below)
    (htop : ∀ e ∈ below.top s.below, P e.1) :
    valid (settle below space family rounds s).state.below ∧
      ((settle below space family rounds s).fault = none →
        ∀ e ∈ below.top (settle below space family rounds s).state.below, P e.1) := by
  induction rounds generalizing s with
  | zero => exact ⟨hs, fun _ => htop⟩
  | succ rounds ih =>
    rw [Source.settle]
    split
    · exact ⟨hs, fun _ => htop⟩
    · next key value heq =>
      dsimp only
      split_ifs
      · exact ⟨hs, fun _ => htop⟩
      · exact ⟨hs, fun _ => htop⟩
      · exact ⟨hs, fun _ => htop⟩
      · have hvalid := h.seek (s.range.withStart (space.jumpTarget key)) (.only family) s.below hs
        split
        · next hsome => exact ⟨hvalid, fun hfault => by simp at hfault⟩
        · next hnone =>
          exact ih hvalid fun e he => hup key e.1 (htop (key, value) heq) (h.lt_of_jump space family hs hnone e he)

theorem Ascends.skipScan (space : SearchSpace) (family : Bytes) :
    (below.skipScan space family).Ascends entries fun s => valid s.below := by
  have habove (key a b : Key) (ha : compare key a = .lt) (hlt : compare a b = .lt) : compare key b = .lt :=
    TransCmp.lt_trans ha hlt
  have htop {s : SkipState σ} {e : Entry} (he : e ∈ (below.skipScan space family).top s) : e ∈ below.top s.below := by
    simp only [Source.skipScan] at he
    split at he
    · simp at he
    · exact he
  refine ⟨h.fresh, fun range filter s hs => ?_, fun s hs => ?_, fun s hs e he => ?_,
    fun range filter s hs hfault e he => ?_, fun s hs hfault e he d hd => ?_, h.size_le⟩
  · simp only [Source.skipScan]
    have hvalid := h.seek range (.only family) s.below hs
    split
    · exact hs
    · split
      · exact hvalid
      · exact (h.settle (P := fun _ => True) space family (fun _ _ _ _ => trivial) _ hvalid fun _ _ => trivial).1
  · simp only [Source.skipScan]
    have hvalid := h.next s.below hs
    split
    · exact hs
    · split
      · exact hvalid
      · exact (h.settle (P := fun _ => True) space family (fun _ _ _ _ => trivial) _ hvalid fun _ _ => trivial).1
  · exact h.top_mem s.below hs e (htop he)
  · have hend := htop he
    have hspace : SortedSet.isEmpty space = false := by
      by_contra hempty
      rw [Bool.not_eq_false] at hempty
      simp [Source.skipScan, hempty] at he
    simp only [Source.skipScan, hspace, Bool.false_eq_true, if_false] at hfault hend
    split at hfault
    · simp at hfault
    · next hseek =>
      simp only [hseek] at hend
      have hfirst := h.start_le range (.only family) s.below hs hseek
      exact (h.settle space family (fun _ _ => range.not_beforeStart_of_lt) _
        (h.seek range (.only family) s.below hs) hfirst).2 hfault e hend
  · have hbelow := htop he
    have hopen : (s.exhausted || (below.top s.below).isNone) = false := by
      simp only [Source.skipScan] at he
      split at he
      · simp at he
      · next hex => simp [hex, Option.isNone_eq_false_iff, Option.isSome_of_mem he]
    have hend := htop hd
    simp only [Source.skipScan, hopen, Bool.false_eq_true, if_false] at hfault hend
    split at hfault
    · simp at hfault
    · next hnext =>
      simp only [hnext] at hend
      have hfirst := h.top_lt s.below hs hnext e hbelow
      exact (h.settle space family (habove e.1) _ (h.next s.below hs) hfirst).2 hfault d hend

end Layers

end Source

/-! ### Stacks -/

namespace Stack

/-- Entries at the bottom of a stack. -/
def bottom : Stack → Entries
  | .list entries | .overreading entries => entries
  | .skipScan _ _ below | .bounded below | .faulty _ below => below.bottom

theorem exists_ascends (stack : Stack) : ∃ valid, stack.source.Ascends stack.bottom valid := by
  induction stack with
  | list entries => exact ⟨_, Source.ofEntries_ascends entries⟩
  | overreading entries => exact ⟨_, Source.overreading_ascends entries⟩
  | skipScan space family below ih =>
    obtain ⟨valid, h⟩ := ih
    exact ⟨_, h.skipScan space family⟩
  | bounded below ih =>
    obtain ⟨valid, h⟩ := ih
    exact ⟨_, h.bounded⟩
  | faulty plan below ih =>
    obtain ⟨valid, h⟩ := ih
    exact ⟨_, h.faulty plan⟩

end Stack

end ProximitySearch
