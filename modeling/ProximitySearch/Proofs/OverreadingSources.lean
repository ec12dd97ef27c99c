import ProximitySearch.Proofs.SkipScan

/-!
# Sources that read too far

A source over sorted entries may ignore the end of the range and the families of a seek, and stand at an entry that
nobody sought (`Source.overreadingFrom`). The layers over it make up for that (`overreading_contained`). A bounded
walk yields the entries in the range, and a skip scan those of them that are candidates, of whatever family. Neither
has a top before its first seek, and neither moves once it has none (`Source.Yields`).

Such a source serves every entry from the start of the range on (`overreadingFrom_serves`), and that is all that
`bounded_serves` and `skipScan_serves` ask of it: the end of the range is left to the layer.
-/

namespace ProximitySearch.Source

variable {σ : Type}

/-! ## What a walk yields -/

/-- After each seek a walk yields what there is in view of the range, in order, whatever was done before the seek.
Before its first seek it has no top, and where it has none it gets none until the next seek. -/
structure Yields (src : Source σ) (view : KeyRange → List Entry) : Prop where
  sought : ∀ range filter s k, (src.sought range filter s k).fault = none ∧
    src.top (src.sought range filter s k).state = (view range)[k]?
  collect : ∀ range filter s, (src.collect (src.seek range filter s).state).2 = .ok (view range)
  fresh : ∀ k, src.top (src.advance k src.fresh) = none
  idle : ∀ s, src.top s = none → ∀ k, src.top (src.advance k s) = none

/-- A walk yields what it serves, if that is the same for all families and it only moves from a top. -/
theorem Serves.yields {src : Source σ} {entries : Entries} {shown : KeyRange → Key → Bool}
    (h : src.Serves entries fun range _ key => shown range key) (hfresh : src.Shows src.fresh [])
    (hidle : ∀ s, src.top s = none → (src.next s).state = s) :
    src.Yields fun range => entries.toList.filter fun e => !range.beforeStart e.1 && shown range e.1 where
  sought := h.sought
  collect := h.collect
  fresh k := (hfresh k).1
  idle s hs k := by rw [advance_of_next_eq (hidle s hs), hs]

section Layers

variable {below : Source σ}

theorem next_bounded_of_top_eq_none {s : BoundedState σ} (h : below.bounded.top s = none) :
    (below.bounded.next s).state = s := by
  have hnone : (boundedTop below s).isNone = true := Option.isNone_iff_eq_none.mpr h
  simp only [bounded, hnone, if_true]

theorem next_skipScan_of_top_eq_none {space : SearchSpace} {family : Bytes} {s : SkipState σ}
    (h : (below.skipScan space family).top s = none) : ((below.skipScan space family).next s).state = s := by
  have hstop : (s.exhausted || (below.top s.below).isNone) = true := by
    simp only [skipScan] at h
    split at h
    · next hex => simp [hex]
    · simp [h]
  simp only [skipScan, hstop, if_true]

end Layers

/-! ## Reading too far -/

/-- The walk over entries that ignores families and the end of the range. New walks and copies stand at the first of
`start`, wherever that is, though they have not been told to seek. -/
def overreadingFrom (entries : Entries) (start : List Entry) : Source (List Entry) :=
  { overreading entries with fresh := start }

example (entries : Entries) : overreadingFrom entries entries.toList = overreading entries := rfl

theorem overreadingFrom_serves (entries : Entries) (start : List Entry) :
    (overreadingFrom entries start).Serves entries fun _ _ _ => true where
  shown_withStart _ _ _ _ := rfl
  fault _ _ _ := rfl
  size_le := Nat.le_refl _
  shows_seek range filter s := by
    have hshows (l : List Entry) : (overreadingFrom entries start).Shows l l :=
      shows_of_step (fun s l => s = l) (fun s l hs => by subst hs; exact ⟨rfl, rfl, rfl⟩) rfl
    have hstart := dropWhile_beforeStart entries range
    simp only [Bool.and_true]
    rw [← hstart]
    exact hshows _

/-- Whatever a source shows past the end of a range, of other families, or before any seek, a bounded walk over it
yields the entries in the range, and a skip scan the candidates among them. More rounds for its searches would change
nothing. -/
theorem overreading_contained (entries : Entries) (start : List Entry) (space : SearchSpace) (family : Bytes) :
    let src := overreadingFrom entries start
    src.bounded.Yields (fun range => entries.toList.filter fun e => range.contains e.1) ∧
    (src.skipScan space family).Yields (fun range =>
      entries.toList.filter fun e => range.contains e.1 && decide (e.1.qualifier ∈ space)) ∧
    ∀ rounds, entries.size ≤ rounds → ∀ range filter s k,
      ((src.withSize rounds).skipScan space family).sought range filter s k =
        (src.skipScan space family).sought range filter s k := by
  have hserves := overreadingFrom_serves entries start
  refine ⟨?_, ?_, fun rounds hrounds range filter s k => ?_⟩
  · have hbounded := bounded_serves hserves
    simp only [Bool.and_true] at hbounded
    exact hbounded.yields (shows_fresh_bounded _) fun _ => next_bounded_of_top_eq_none
  · have hscan : ((overreadingFrom entries start).skipScan space family).Serves entries fun range _ key =>
        !range.afterEnd key && decide (key.qualifier ∈ space) :=
      (skipScan_serves hserves space family).congr fun _ _ _ => Bool.true_and _
    have hyields := hscan.yields (shows_fresh_skipScan _ space family) fun _ => next_skipScan_of_top_eq_none
    simpa only [KeyRange.contains, Bool.and_assoc] using hyields
  · have hsame : (overreadingFrom entries start).SameWalk ((overreadingFrom entries start).withSize rounds) :=
      ⟨rfl, rfl, fun _ _ => rfl⟩
    exact ((sameWalk_skipScan hsame hserves hrounds space family).sought range filter s k).symm

/-- Entries of two families, the last past the rows sought. -/
def mixedRows : Entries :=
  .ofList [(⟨[1], [5], [1]⟩, [11]), (⟨[1], [9], [2]⟩, [12]), (⟨[2], [5], [2]⟩, [22]), (⟨[3], [5], [2]⟩, [32])]

/-- A copy of the source stands at the last entry. A scan of the first two rows over it has no top at first, and
collects a candidate of each family. -/
theorem overreading_contained_mixedRows :
    let src := overreadingFrom mixedRows [(⟨[3], [5], [2]⟩, [32])]
    let scan := src.skipScan (.ofList [[2]]) [5]
    let rows := KeyRange.halfOpen ⟨[1], [], []⟩ ⟨[3], [], []⟩
    src.top src.fresh ≠ none ∧ scan.top scan.fresh = none ∧
      (scan.collect (scan.seek rows .any scan.fresh).state).2 =
        .ok [(⟨[1], [9], [2]⟩, [12]), (⟨[2], [5], [2]⟩, [22])] ∧
      mixedRows.size ≤ 9 ∧
      ((src.withSize 9).skipScan (.ofList [[2]]) [5]).sought rows .any scan.fresh 3 =
        scan.sought rows .any scan.fresh 3 := by
  intro src scan rows
  obtain ⟨-, hscan, hrounds⟩ := overreading_contained mixedRows [(⟨[3], [5], [2]⟩, [32])] (.ofList [[2]]) [5]
  have hsize : mixedRows.size ≤ 9 := by decide
  have hview : (mixedRows.toList.filter fun e => rows.contains e.1 && decide (e.1.qualifier ∈ SortedSet.ofList [[2]])) =
      [(⟨[1], [9], [2]⟩, [12]), (⟨[2], [5], [2]⟩, [22])] := by decide
  refine ⟨by decide, hscan.fresh 0, ?_, hsize, hrounds 9 hsize rows .any scan.fresh 3⟩
  rw [← hview]
  exact hscan.collect rows .any scan.fresh

end ProximitySearch.Source
