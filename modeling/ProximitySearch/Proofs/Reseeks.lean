import Mathlib.Data.List.Nodup
import Mathlib.Data.List.Perm.Subperm
import ProximitySearch.Proofs.FailingSources

/-!
# How often a skip scan seeks again

A skip scan seeks again where its source stands at no candidate. Over entries it does so at most once for each candidate
of a row and once to leave the row, and only in rows that hold an entry of its family in the range (`reseeks_le`).

The seeks are read off a journal below the scan, which changes nothing else. The invariant is `Jumped`: the jumps made
so far are those on record, each goes strictly further than the one before, and none goes past an entry that is still to
come. A jump starts at such an entry and goes beyond it, so it is greater than all before it (`Jumped.jump`). Searches
and moves on keep the invariant (`Jumped.settle`, `Jumped.next`), and so does a run (`exists_jumped`).
-/

namespace ProximitySearch

open Std

/-! ## Targets -/

theorem SearchSpace.jumpTarget_eq_or (space : SearchSpace) (key : Key) :
    (∃ c ∈ space, space.jumpTarget key = key.withQualifier c) ∨ space.jumpTarget key = key.followingKey .family := by
  unfold jumpTarget
  split
  · next c hnext => exact .inl ⟨c, List.mem_of_find?_eq_some hnext, rfl⟩
  · exact .inr rfl

/-- The key that a scan of a family leaves a row for: the first one past the family. -/
def rowEnd (family row : Bytes) : Key :=
  Key.followingKey ⟨row, family, []⟩ .family

/-- Rows that hold an entry of a family in a range. -/
def rowsWith (entries : Entries) (family : Bytes) (range : KeyRange) : SortedSet Bytes :=
  .ofList ((entries.toList.filter fun e => e.1.family == family && range.contains e.1).map fun e => e.1.row)

/-- A key that a scan of a family jumps to in one of the rows: a candidate there, or the row's end. -/
def IsTarget (space : SearchSpace) (family : Bytes) (rows : SortedSet Bytes) (t : Key) : Prop :=
  t.row ∈ rows ∧ ((∃ c ∈ space, t = ⟨t.row, family, c⟩) ∨ t = rowEnd family t.row)

/-- Each row has one more target than there are candidates. -/
theorem length_targets_le {space : SearchSpace} {family : Bytes} {rows : SortedSet Bytes} {targets : List Key}
    (hnodup : targets.Nodup) (htargets : ∀ t ∈ targets, IsTarget space family rows t) :
    targets.length ≤ (SortedSet.size space + 1) * rows.size := by
  let ofRow (row : Bytes) : List Key := rowEnd family row :: space.toList.map fun c => ⟨row, family, c⟩
  have hsubset : targets ⊆ rows.toList.flatMap ofRow := by
    intro t ht
    obtain ⟨hrow, hcase⟩ := htargets t ht
    refine List.mem_flatMap.mpr ⟨t.row, hrow, ?_⟩
    rcases hcase with ⟨c, hc, heq⟩ | heq
    · exact List.mem_cons_of_mem _ (List.mem_map.mpr ⟨c, hc, heq.symm⟩)
    · exact List.mem_cons.mpr (.inl heq)
  have hlength : (rows.toList.flatMap ofRow).length = (SortedSet.size space + 1) * rows.size := by
    simp [List.length_flatMap, ofRow, SortedSet.size, Nat.mul_comm]
  rw [← hlength]
  exact (List.subperm_of_subset hnodup hsubset).length_le

namespace Source

variable {σ : Type} {below : Source σ} {entries : Entries} {shown : KeyRange → FamilyFilter → Key → Bool}
  {space : SearchSpace} {family : Bytes} {range : KeyRange} {before : List (KeyRange × FamilyFilter)}

/-! ## Jumps on record -/

/-- A scan of a range over a source with a journal, which had `before` on record when the jumps began. The source shows
`rest`; the jumps are counted and on record, each goes further than the one before, and none past what is left. -/
structure Jumped (below : Source σ) (entries : Entries) (shown : KeyRange → FamilyFilter → Key → Bool)
    (space : SearchSpace) (family : Bytes) (range : KeyRange) (before : List (KeyRange × FamilyFilter))
    (targets : List Key) (s : SkipState (JournalState σ)) (rest : List Entry) : Prop where
  range_eq : s.range = range
  shows : below.journaled.Shows s.below rest
  suffix : rest <:+ belowView entries shown family range
  count : s.reseeks = targets.length
  recorded : requests s.below = before ++ targets.map fun t => (range.withStart t, .only family)
  ascending : targets.Pairwise fun a b => compare a b = .lt
  passed : ∀ t ∈ targets, ∀ e ∈ rest, (compare t e.1).isLE
  origin : ∀ t ∈ targets, ∃ e ∈ belowView entries shown family range, t = space.jumpTarget e.1

section Steps

variable {targets : List Key} {s : SkipState (JournalState σ)}

/-- A jump from the entry on show goes further than all before it. -/
theorem Jumped.jump (h : below.Serves entries shown) {e : Entry} {rest : List Entry}
    (hs : Jumped below entries shown space family range before targets s (e :: rest)) :
    Jumped below entries shown space family range before (targets ++ [space.jumpTarget e.1])
      ⟨(below.journaled.seek (s.range.withStart (space.jumpTarget e.1)) (.only family) s.below).state, s.range,
        s.exhausted, s.reseeks + 1⟩
      (rest.filter fun d => !(compare d.1 (space.jumpTarget e.1)).isLT) := by
  have hlt := SearchSpace.lt_jumpTarget space e.1
  have hsorted : Ascending (e :: rest) := (belowView_ascending range).sublist hs.suffix.sublist
  have hsub := (jump_rest (List.pairwise_cons.mp hsorted).2 (space.jumpTarget e.1)).2
  have hshows := (journaled_serves h).shows_seek (s.range.withStart (space.jumpTarget e.1)) (.only family) s.below
  change below.journaled.Shows _ (belowView entries shown family _) at hshows
  rw [hs.range_eq, reseek_rest h.shown_withStart hs.suffix hlt] at hshows
  refine ⟨hs.range_eq, hs.range_eq ▸ hshows, hsub.trans ((List.suffix_cons e rest).trans hs.suffix), ?_, ?_, ?_, ?_, ?_⟩
  · simp [hs.count]
  · simp [hs.recorded, hs.range_eq]
  · refine List.pairwise_append.mpr ⟨hs.ascending, List.pairwise_singleton _ _, fun t ht d hd => ?_⟩
    obtain rfl := List.mem_singleton.mp hd
    exact TransCmp.lt_of_isLE_of_lt (hs.passed t ht e List.mem_cons_self) hlt
  · intro t ht d hd
    obtain ⟨hrest, hge⟩ := List.mem_filter.mp hd
    rcases List.mem_append.mp ht with ht | ht
    · exact hs.passed t ht d (List.mem_cons_of_mem _ hrest)
    · obtain rfl := List.mem_singleton.mp ht
      refine OrientedCmp.isGE_iff_isLE.mp ?_
      cases hc : compare d.1 (space.jumpTarget e.1) <;> simp_all
  · intro t ht
    rcases List.mem_append.mp ht with ht | ht
    · exact hs.origin t ht
    · exact ⟨e, hs.suffix.mem List.mem_cons_self, List.mem_singleton.mp ht⟩

theorem Jumped.next {rest : List Entry}
    (hs : Jumped below entries shown space family range before targets s rest) :
    Jumped below entries shown space family range before targets
      ⟨(below.journaled.next s.below).state, s.range, s.exhausted, s.reseeks⟩ rest.tail :=
  ⟨hs.range_eq, hs.shows.next, (List.tail_suffix rest).trans hs.suffix, hs.count, hs.recorded, hs.ascending,
    fun t ht e he => hs.passed t ht e (List.mem_of_mem_tail he), hs.origin⟩

theorem Jumped.settle (h : below.Serves entries shown) (rounds : Nat) {rest : List Entry}
    (hs : Jumped below entries shown space family range before targets s rest) :
    ∃ targets' rest', Jumped below entries shown space family range before targets'
      (Source.settle below.journaled space family rounds s).state rest' := by
  induction rounds generalizing s targets rest with
  | zero => exact ⟨targets, rest, hs⟩
  | succ rounds ih =>
    have hstopped : ∃ targets' rest', Jumped below entries shown space family range before targets'
        { s with exhausted := true } rest' :=
      ⟨targets, rest, hs.range_eq, hs.shows, hs.suffix, hs.count, hs.recorded, hs.ascending, hs.passed, hs.origin⟩
    rw [Source.settle]
    split
    · exact ⟨targets, rest, hs⟩
    · next key value htop =>
      obtain ⟨rest', rfl⟩ := List.head?_eq_some_iff.mp (hs.shows.top.symm.trans htop)
      dsimp only
      split_ifs
      · exact hstopped
      · exact ⟨targets, _, hs⟩
      · exact hstopped
      · rw [(journaled_serves h).fault]
        exact ih (hs.jump h)

end Steps

/-- After a seek and moves on, the seeks on record are the first one and the jumps that were counted. -/
theorem exists_jumped (h : below.Serves entries shown) (hspace : SortedSet.isEmpty space = false) (family : Bytes)
    (range : KeyRange) (filter : FamilyFilter) (s : SkipState (JournalState σ)) (k : Nat) :
    ∃ targets rest, Jumped below entries shown space family range (requests s.below ++ [(range, .only family)]) targets
      ((below.journaled.skipScan space family).sought range filter s k).state rest := by
  induction k with
  | zero =>
    have hfirst : Jumped below entries shown space family range (requests s.below ++ [(range, .only family)]) []
        ⟨(below.journaled.seek range (.only family) s.below).state, range, false, 0⟩
        (belowView entries shown family range) :=
      ⟨rfl, (journaled_serves h).shows_seek range (.only family) s.below, List.suffix_refl _, rfl, by simp, .nil,
        by simp, by simp⟩
    simp only [Source.sought, skipScan, hspace, Bool.false_eq_true, if_false, (journaled_serves h).fault]
    exact hfirst.settle h _
  | succ k ih =>
    obtain ⟨targets, rest, hs⟩ := ih
    rw [Source.sought]
    generalize ((below.journaled.skipScan space family).sought range filter s k).state = t at hs
    simp only [skipScan]
    split
    · exact ⟨targets, rest, hs⟩
    · rw [hs.shows.fault]
      exact hs.next.settle h _

theorem sought_skipScan_of_isEmpty (below : Source σ) (hspace : SortedSet.isEmpty space = true) (family : Bytes)
    (range : KeyRange) (filter : FamilyFilter) (s : SkipState σ) (k : Nat) :
    ((below.skipScan space family).sought range filter s k).state = ⟨s.below, range, true, 0⟩ := by
  induction k with
  | zero => simp only [Source.sought, skipScan, hspace, if_true]
  | succ k ih =>
    rw [Source.sought, ih]
    simp only [skipScan, Bool.true_or, if_true]

/-! ## Scans over entries -/

section List

variable {entries : Entries}

theorem rowsWith_of_mem_belowView {e : Entry} (he : e ∈ belowView entries listShown family range) :
    e.1.row ∈ rowsWith entries family range ∧ e.1.family = family := by
  obtain ⟨hlist, hshown⟩ := List.mem_filter.mp he
  simp only [listShown, FamilyFilter.selects, FamilyFilter.only, Bool.and_eq_true, Bool.not_eq_true', if_true,
    List.contains_iff_mem, List.mem_singleton] at hshown
  obtain ⟨hstart, hend, hfamily⟩ := hshown
  refine ⟨SortedSet.mem_ofList.mpr (List.mem_map.mpr ⟨e, List.mem_filter.mpr ⟨hlist, ?_⟩, rfl⟩), hfamily⟩
  simp [hfamily, KeyRange.contains, hstart, hend]

theorem isTarget_jumpTarget {e : Entry} (he : e ∈ belowView entries listShown family range) :
    IsTarget space family (rowsWith entries family range) (space.jumpTarget e.1) := by
  obtain ⟨hrow, hfamily⟩ := rowsWith_of_mem_belowView he
  rcases SearchSpace.jumpTarget_eq_or space e.1 with ⟨c, hc, hjump⟩ | hjump
  · rw [hjump]
    exact ⟨hrow, .inl ⟨c, hc, by simp [Key.withQualifier, hfamily]⟩⟩
  · rw [hjump]
    exact ⟨hrow, .inr (by simp [rowEnd, Key.followingKey, hfamily])⟩

theorem sought_skipScan_journaled (entries : Entries) (space : SearchSpace) (family : Bytes) (range : KeyRange)
    (filter : FamilyFilter) (s : SkipState (JournalState ListState)) (k : Nat) :
    ((ofEntries entries).skipScan space family).sought range filter (SkipState.map JournalState.below s) k =
      (((ofEntries entries).journaled.skipScan space family).sought range filter s k).map
        (SkipState.map JournalState.below) := by
  have hscan := skipScan_serves (journaled_serves (ofEntries_serves entries)) space family
  have hfollows := (journaled_projects (ofEntries entries)).follows.skipScan space family
  exact hfollows.sought range filter s fun j _ => (hscan.sought range filter s j).1

theorem exists_targets (entries : Entries) (space : SearchSpace) (family : Bytes) (range : KeyRange)
    (filter : FamilyFilter) {s : SkipState (JournalState ListState)} (hs : s.below.seeks = []) (k : Nat) :
    let traced := (((ofEntries entries).journaled.skipScan space family).sought range filter s k).state
    ∃ targets : List Key, traced.reseeks = targets.length ∧
      (requests traced.below = if SortedSet.isEmpty space then [] else
        (range, .only family) :: targets.map fun t => (range.withStart t, .only family)) ∧
      (targets.Pairwise fun a b => compare a b = .lt) ∧
      ∀ t ∈ targets, IsTarget space family (rowsWith entries family range) t := by
  intro traced
  have hnone : requests s.below = [] := by rw [requests, hs, List.map_nil]
  cases hspace : SortedSet.isEmpty space with
  | true =>
    have hstate : traced = _ :=
      sought_skipScan_of_isEmpty (ofEntries entries).journaled hspace family range filter s k
    exact ⟨[], by rw [hstate]; rfl, by rw [hstate]; exact hnone, .nil, by simp⟩
  | false =>
    obtain ⟨targets, rest, hjumped⟩ := exists_jumped (ofEntries_serves entries) hspace family range filter s k
    have hrecorded := hjumped.recorded
    rw [hnone] at hrecorded
    refine ⟨targets, hjumped.count, hrecorded, hjumped.ascending, fun t ht => ?_⟩
    obtain ⟨e, he, rfl⟩ := hjumped.origin t ht
    exact isTarget_jumpTarget he

end List

/-- After a seek and any moves on, a scan over entries has sought again at most once more than it has candidates for
each row that holds an entry of its family in the range. The seeks on record, of the same scan over a journal, are the
one it was told to make and one for each jump. Each jump goes further than the one before, to a candidate in such a row
or to the row's end, and to none of these twice. -/
theorem reseeks_le (entries : Entries) (space : SearchSpace) (family : Bytes) (range : KeyRange) (filter : FamilyFilter)
    (s : SkipState ListState) (k : Nat) :
    let run := ((ofEntries entries).skipScan space family).sought range filter s k
    let traced := ((ofEntries entries).journaled.skipScan space family).sought range filter
      ⟨⟨s.below, []⟩, s.range, s.exhausted, s.reseeks⟩ k
    let rows := rowsWith entries family range
    run = traced.map (SkipState.map JournalState.below) ∧
    run.state.reseeks ≤ (SortedSet.size space + 1) * rows.size ∧
    ∃ targets : List Key, run.state.reseeks = targets.length ∧
      (requests traced.state.below = if SortedSet.isEmpty space then [] else
        (range, .only family) :: targets.map fun t => (range.withStart t, .only family)) ∧
      (targets.Pairwise fun a b => compare a b = .lt) ∧ (∀ t ∈ targets, IsTarget space family rows t) ∧
      ∀ row, (∀ c ∈ space, targets.count ⟨row, family, c⟩ ≤ 1) ∧ targets.count (rowEnd family row) ≤ 1 := by
  intro run traced rows
  have hsame : run = traced.map (SkipState.map JournalState.below) :=
    sought_skipScan_journaled entries space family range filter ⟨⟨s.below, []⟩, s.range, s.exhausted, s.reseeks⟩ k
  obtain ⟨targets, hcount, hrecorded, hascending, htargets⟩ :=
    exists_targets entries space family range filter
      (s := ⟨⟨s.below, []⟩, s.range, s.exhausted, s.reseeks⟩) rfl k
  have hcount : run.state.reseeks = targets.length := by
    rw [hsame]
    exact hcount
  have hnodup : targets.Nodup := by
    refine hascending.imp fun hlt heq => ?_
    subst heq
    simp at hlt
  have honce := List.nodup_iff_count_le_one.mp hnodup
  refine ⟨hsame, ?_, targets, hcount, hrecorded, hascending, htargets, fun row => ⟨fun c _ => honce _, honce _⟩⟩
  rw [hcount]
  exact length_targets_le hnodup htargets

/-- Two rows, each with an entry on either side of a candidate. -/
def gappedRows : Entries :=
  .ofList [(⟨[1], [5], [1]⟩, []), (⟨[1], [5], [3]⟩, []), (⟨[2], [5], [1]⟩, []), (⟨[2], [5], [3]⟩, [])]

/-- The bound is reached: one seek jumps twice in each row. -/
example : (((ofEntries gappedRows).skipScan (.ofList [[2]]) [5]).sought .all .any
      ((ofEntries gappedRows).skipScan (.ofList [[2]]) [5]).fresh 0).state.reseeks =
    (SortedSet.size (SortedSet.ofList [[2]] : SearchSpace) + 1) * (rowsWith gappedRows [5] .all).size := by decide

end Source

end ProximitySearch
