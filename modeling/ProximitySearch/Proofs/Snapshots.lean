import Mathlib.Data.Set.Card
import ProximitySearch.FieldIndex
import ProximitySearch.Proofs.Stack

/-!
# Snapshots of an index

An index holds at each key the value last written there and not since removed (`OpenIndex.get?_after`), whichever of
its calls wrote it. A snapshot keeps what the index held when it was taken, whatever is called afterwards on the index
and on the cursors in hand (`OpenIndex.stack_of_snapshot`), and a cursor over it reads this in key order, from every
state it may be in (`Cursor.reads_list`). Entries that are sorted at once are those of an index that they were written
to in turn (`SortedMap.mem_load`).

`index_reads_lastWritten` says so of every history of calls.
-/

namespace ProximitySearch

open Std

/-! ## Sorting at once -/

namespace SortedMap

variable {κ β : Type} [Ord κ] [TransOrd κ] [LawfulEqOrd κ]

theorem ext_get? {m n : SortedMap κ β} (h : ∀ k, m.get? k = n.get? k) : m = n := by
  have hmem (b : κ × β) : b ∈ m.toList ↔ b ∈ n.toList := by
    rw [← get?_eq_some_iff, ← get?_eq_some_iff, h]
  have hirrefl : Std.Irrefl fun a b : κ × β => compare a.1 b.1 = .lt := ⟨fun a hlt => by simp at hlt⟩
  have hantisymm : Std.Antisymm fun a b : κ × β => compare a.1 b.1 = .lt :=
    ⟨fun a b hab hba => absurd hba (OrientedCmp.not_lt_of_lt hab)⟩
  obtain ⟨l, hl⟩ := m
  obtain ⟨l', hl'⟩ := n
  obtain rfl : l = l' := hl.eq_of_mem_iff hl' hmem
  rfl

variable [DecidableEq κ] {k : κ} {v : β}

theorem filter_mergeSort (k : κ) (l : List (κ × β)) :
    (l.mergeSort fun a b => (compare a.1 b.1).isLE).filter (·.1 = k) = l.filter (·.1 = k) := by
  have hpairwise : (l.filter (·.1 = k)).Pairwise fun a b => (compare a.1 b.1).isLE := by
    refine List.pairwise_of_forall_mem_list fun a ha b hb => ?_
    obtain ⟨-, ha⟩ := List.mem_filter.mp ha
    obtain ⟨-, hb⟩ := List.mem_filter.mp hb
    simp_all
  have hsublist := List.sublist_mergeSort (fun _ _ _ => TransCmp.isLE_trans) isLE_total hpairwise List.filter_sublist
  have hfilter := hsublist.filter (·.1 = k)
  rw [List.filter_filter] at hfilter
  simp only [Bool.and_self] at hfilter
  exact (hfilter.eq_of_length ((List.mergeSort_perm l _).filter _).length_eq.symm).symm

theorem mem_keepLast {l : List (κ × β)} (h : l.Pairwise fun a b => (compare a.1 b.1).isLE) :
    (k, v) ∈ keepLast l ↔ (l.filter (·.1 = k)).getLast? = some (k, v) := by
  fun_induction keepLast l with
  | case1 => simp
  | case2 b =>
    by_cases hb : b.1 = k
    · simp [hb, eq_comm]
    · have hne : (k, v) ≠ b := fun heq => hb (by simp [← heq])
      simp [hb, hne]
  | case3 b c rest heq ih =>
    have hbc : b.1 = c.1 := LawfulEqCmp.eq_of_compare heq
    rw [ih (List.pairwise_cons.mp h).2]
    by_cases hc : c.1 = k
    · simp [hbc, hc, List.getLast?_cons_cons]
    · simp [hbc, hc]
  | case4 b c rest hne ih =>
    rw [List.mem_cons, ih (List.pairwise_cons.mp h).2]
    by_cases hk : b.1 = k
    · -- the binding is the only one of its key, for all that follow are above it
      have hnone : (c :: rest).filter (·.1 = k) = [] := by
        refine List.filter_eq_nil_iff.mpr fun d hd hdk => ?_
        have hlt := lt_of_mem_of_ne h hne d hd
        have hdk : d.1 = k := by simpa using hdk
        simp [hk, hdk] at hlt
      rw [hnone, List.filter_cons_of_pos (by simpa using hk), hnone]
      simp [eq_comm]
    · have hne : (k, v) ≠ b := fun heq => hk (by simp [← heq])
      simp [hk, hne]

theorem mem_load {l : List (κ × β)} : (k, v) ∈ (load l).toList ↔ (l.filter (·.1 = k)).getLast? = some (k, v) := by
  rw [← filter_mergeSort k l]
  exact mem_keepLast <| List.pairwise_mergeSort (fun _ _ _ => TransCmp.isLE_trans) isLE_total l

end SortedMap

/-! ## Bisection -/

/-- Halves the indices from `low` up to `high` until one is left: the first that fails the test, if all before it pass
and none from there on does. -/
def bisect (test : Nat → Bool) (low high : Nat) : Nat :=
  if low < high then
    let middle := (low + high) / 2
    if test middle then bisect test (middle + 1) high else bisect test low middle
  else low
termination_by high - low

theorem bisect_eq {test : Nat → Bool} {low point high : Nat} (hlow : low ≤ point) (hhigh : point ≤ high)
    (htest : ∀ i < high, test i = true ↔ i < point) : bisect test low high = point := by
  fun_induction bisect test low high with
  | case1 low high hlt middle hpass ih =>
    have hmiddle := (htest middle (by omega)).mp hpass
    exact ih (by omega) hhigh htest
  | case2 low high hlt middle hfail ih =>
    have hmiddle := mt (htest middle (by omega)).mpr hfail
    exact ih hlow (by omega) fun i hi => htest i (by omega)
  | case3 low high hge => omega

/-- In a list whose members pass a test up to some place, bisection finds the place. -/
theorem drop_bisect {α : Type} {p : α → Bool} {l : List α} (h : l.Pairwise fun a b => p b = true → p a = true) :
    l.drop (bisect (fun i => (l[i]?).any p) 0 l.length) = l.dropWhile p := by
  have hsplit : l.takeWhile p ++ l.dropWhile p = l := List.takeWhile_append_dropWhile
  have hlength : (l.takeWhile p).length ≤ l.length := (List.takeWhile_prefix p).length_le
  have htest : ∀ i < l.length, (l[i]?).any p = true ↔ i < (l.takeWhile p).length := by
    intro i _
    have hget : l[i]? = if i < (l.takeWhile p).length then (l.takeWhile p)[i]?
        else (l.dropWhile p)[i - (l.takeWhile p).length]? := by
      rw [← List.getElem?_append, hsplit]
    rw [hget]
    split
    · next hlt =>
      have hpass := List.all_eq_true.mp List.all_takeWhile _ (List.getElem_mem hlt)
      simp [hlt, hpass]
    · next hge =>
      rw [iff_false_right hge, Bool.not_eq_true, Option.any_eq_false]
      intro a ha
      have hmem := List.mem_of_getElem? ha
      rw [dropWhile_eq_filter h] at hmem
      simpa using (List.mem_filter.mp hmem).2
  rw [bisect_eq (Nat.zero_le _) hlength htest]
  have hdrop := congrArg (List.drop (l.takeWhile p).length) hsplit
  rw [List.drop_left] at hdrop
  exact hdrop.symm

/-! ## Reading a list -/

namespace Cursor

/-- A seek and a collection after it succeed, give some entries, and leave no top. -/
structure Reads (c : Cursor) (range : KeyRange) (filter : FamilyFilter) (entries : List Entry) : Prop where
  seek : (c.seek range filter).fault = none
  collect : (c.seek range filter).state.collect.2 = .ok entries
  top : (c.seek range filter).state.collect.1.top = none

theorem reads_list {c : Cursor} {entries : Entries} (h : c.stack = .list entries) (range : KeyRange)
    (filter : FamilyFilter) :
    c.Reads range filter (entries.toList.filter fun e => range.contains e.1 && filter.selects e.1.family) := by
  obtain ⟨stack, state⟩ := c
  obtain rfl : stack = .list entries := h
  have hserves := Source.ofEntries_serves entries
  have hshown : (entries.toList.filter fun e => range.contains e.1 && filter.selects e.1.family) =
      entries.toList.filter fun e => !range.beforeStart e.1 && Source.listShown range filter e.1 := by
    congr 1
    funext e
    rw [KeyRange.contains, Source.listShown, Bool.and_assoc]
  rw [hshown]
  refine ⟨hserves.fault range filter state, hserves.collect range filter state, ?_⟩
  exact (hserves.shows_seek range filter state).top_collectUpTo (Nat.le_succ_of_le (List.length_filter_le _ _))

end Cursor

/-! ## Histories -/

/-- A call on an index, or on one of the cursors in hand. -/
inductive IndexCall where
  | insert (key : Key) (value : Bytes)
  | insertFieldIndex (row field value : String) (id : DocumentId)
  | insertTermFrequency (row : String) (id : DocumentId) (value field : String) (offsets : Bytes)
  | remove (key : Key)
  | snapshot
  | walk (call : Call)

/-- An index, and the cursors in hand over its snapshots. -/
structure OpenIndex where
  index : FieldIndex
  cursors : List Cursor

namespace IndexCall

def run (s : OpenIndex) : IndexCall → OpenIndex
  | .insert key value => { s with index := s.index.insert key value }
  | .insertFieldIndex row field value id => { s with index := s.index.insertFieldIndex row field value id }
  | .insertTermFrequency row id value field offsets =>
    { s with index := s.index.insertTermFrequency row (.ofParts id value field) offsets }
  | .remove key => { s with index := (s.index.remove key).1 }
  | .snapshot => { s with cursors := s.cursors ++ [.ofStack (.list s.index.snapshot)] }
  | .walk call => { s with cursors := call.run s.cursors }

/-- The key that a call writes or removes, and what the key holds then. -/
def effect? : IndexCall → Option (Key × Option Bytes)
  | .insert key value => some (key, some value)
  | .insertFieldIndex row field value id =>
    some (⟨Utf8.encode row, Utf8.encode (fieldIndexFamily field), Utf8.encode (fieldIndexQualifier value id)⟩, some [])
  | .insertTermFrequency row id value field offsets =>
    let qualifier := (Hit.ofParts id value field).bytes
    some (⟨Utf8.encode row, Utf8.encode FieldIndex.termFrequencyFamily, qualifier⟩, some offsets)
  | .remove key => some (key, none)
  | .snapshot | .walk _ => none

end IndexCall

/-- The value last written at a key and not since removed. -/
def lastWritten (calls : List IndexCall) (key : Key) : Option Bytes :=
  ((calls.filterMap IndexCall.effect?).filter (·.1 = key)).getLast?.bind Prod.snd

namespace OpenIndex

/-- What some calls make of an index without entries. -/
def after (calls : List IndexCall) : OpenIndex :=
  calls.foldl IndexCall.run ⟨∅, []⟩

theorem after_concat (calls : List IndexCall) (call : IndexCall) :
    after (calls ++ [call]) = call.run (after calls) := by
  rw [after, List.foldl_append]
  rfl

/-- A call leaves at each key what it writes there, and what was there before if it does not touch the key. -/
theorem get?_run (s : OpenIndex) (call : IndexCall) (key : Key) :
    (call.run s).index.entries.get? key =
      match call.effect? with
      | some (k, held) => if key = k then held else s.index.entries.get? key
      | none => s.index.entries.get? key := by
  cases call with
  | remove k => exact SortedMap.get?_erase _ _ _
  | snapshot => rfl
  | walk call => rfl
  | _ => exact SortedMap.get?_insert _ _ _ _

theorem lastWritten_concat (calls : List IndexCall) (call : IndexCall) (key : Key) :
    lastWritten (calls ++ [call]) key =
      match call.effect? with
      | some (k, held) => if key = k then held else lastWritten calls key
      | none => lastWritten calls key := by
  rw [lastWritten, List.filterMap_append, List.filter_append]
  cases heffect : call.effect? with
  | none => simp [heffect, lastWritten]
  | some effect =>
    obtain ⟨k, held⟩ := effect
    by_cases hk : k = key
    · simp [heffect, hk]
    · simp [heffect, hk, Ne.symm hk, lastWritten]

theorem get?_after (calls : List IndexCall) (key : Key) :
    (after calls).index.entries.get? key = lastWritten calls key := by
  induction calls using List.reverseRecOn with
  | nil => rfl
  | append_singleton calls call ih => rw [after_concat, get?_run, lastWritten_concat, ih]

theorem encard_lastWritten (calls : List IndexCall) :
    {key | (lastWritten calls key).isSome}.encard = (after calls).index.size := by
  let entries := (after calls).index.entries
  have hkeys : {key | (lastWritten calls key).isSome} = (entries.keys.toFinset : Set Key) := by
    ext key
    simp [← get?_after, SortedMap.keys, Option.isSome_iff_exists, SortedMap.get?_eq_some_iff, entries]
  have hnodup : entries.keys.Nodup := by
    refine List.pairwise_map.mpr (entries.ascending.imp fun hlt heq => ?_)
    rw [heq] at hlt
    simp at hlt
  rw [hkeys, Set.encard_coe_eq_coe_finsetCard, List.toFinset_card_of_nodup hnodup, SortedMap.keys, List.length_map]
  rfl

/-! ## Snapshots -/

theorem stack_of_run {s : OpenIndex} {i : Nat} {stack : Stack} (h : (s.cursors[i]?).map Cursor.stack = some stack)
    (call : IndexCall) : ((call.run s).cursors[i]?).map Cursor.stack = some stack := by
  have happend (more : List Cursor) : ((s.cursors ++ more)[i]?).map Cursor.stack = some stack := by
    obtain ⟨c, hc, -⟩ := Option.map_eq_some_iff.mp h
    rw [List.getElem?_append_left (List.getElem?_eq_some_iff.mp hc).1, h]
  have hmodify (j : Nat) {f : Cursor → Cursor} (hf : ∀ c, (f c).stack = c.stack) :
      ((s.cursors.modify j f)[i]?).map Cursor.stack = some stack := by
    obtain ⟨c, hc, hstack⟩ := Option.map_eq_some_iff.mp h
    rw [List.getElem?_modify, hc]
    by_cases hj : j = i <;> simp [hj, hf, hstack]
  cases call with
  | snapshot => exact happend _
  | walk call =>
    cases call with
    | seek j range filter => exact hmodify j fun _ => rfl
    | next j => exact hmodify j fun _ => rfl
    | copy j => exact happend _
  | _ => exact h

theorem stack_of_snapshot (calls later : List IndexCall) :
    ((after (calls ++ .snapshot :: later)).cursors[(after calls).cursors.length]?).map Cursor.stack =
      some (.list (after calls).index.entries) := by
  induction later using List.reverseRecOn with
  | nil =>
    rw [after_concat]
    simp [IndexCall.run, FieldIndex.snapshot, Cursor.ofStack]
  | append_singleton later call ih =>
    rw [← List.cons_append, ← List.append_assoc, after_concat]
    exact stack_of_run ih call

/-- Entries written in turn are those of the map that loads them at once. -/
theorem entries_after_inserts (entries : List Entry) :
    (after (entries.map fun e => .insert e.1 e.2)).index.entries = .load entries := by
  refine SortedMap.ext_get? fun key => Option.ext fun value => ?_
  have hlast : lastWritten (entries.map fun e => .insert e.1 e.2) key =
      (entries.filter (·.1 = key)).getLast?.map Prod.snd := by
    have heffects : (entries.map fun e => IndexCall.insert e.1 e.2).filterMap IndexCall.effect? =
        entries.map fun e => (e.1, some e.2) := by
      simp [List.filterMap_map, IndexCall.effect?, Function.comp_def]
    rw [lastWritten, heffects, List.filter_map, List.getLast?_map, Option.bind_map]
    exact Option.map_eq_bind.symm
  rw [get?_after, hlast, SortedMap.get?_eq_some_iff, SortedMap.mem_load, Option.map_eq_some_iff]
  constructor
  · rintro ⟨⟨key', value'⟩, hlast, rfl⟩
    obtain ⟨-, hkey⟩ := List.mem_filter.mp (List.mem_of_getLast? hlast)
    rw [hlast]
    simpa using hkey
  · intro hlast
    exact ⟨_, hlast, rfl⟩

theorem cursors_after_inserts (entries : List Entry) :
    (after (entries.map fun e => .insert e.1 e.2)).cursors = [] := by
  induction entries using List.reverseRecOn with
  | nil => rfl
  | append_singleton entries e ih =>
    rw [List.map_append, List.map_singleton, after_concat]
    exact ih

end OpenIndex

theorem Source.rest_seek_ofEntries (entries : Entries) (range : KeyRange) (filter : FamilyFilter) (s : ListState) :
    ((ofEntries entries).seek range filter s).state.rest = firstShown range filter (entries.toList.drop
      (bisect (fun i => (entries.toList[i]?).any fun e => range.beforeStart e.1) 0 entries.size)) := by
  have hbefore : entries.toList.Pairwise fun a b => range.beforeStart b.1 = true → range.beforeStart a.1 = true :=
    entries.ascending.imp KeyRange.beforeStart_of_lt
  rw [SortedMap.size, drop_bisect hbefore]
  rfl

open OpenIndex

/-- After any calls, a snapshot is in hand whose cursor, whatever is called later, reads what was last written at the
keys in the range and of the families selected, in ascending order. A removal gives what was last written at its key,
and the size is the number of keys for which there is something. A list that is loaded at once is the snapshot taken
after writing its entries in turn. And a seek goes where bisection leads. -/
theorem index_reads_lastWritten (calls later : List IndexCall) :
    (∃ c, (after (calls ++ .snapshot :: later)).cursors[(after calls).cursors.length]? = some c ∧
      ∀ range filter, ∃ entries, c.Reads range filter entries ∧ Ascending entries ∧
        ∀ key value, (key, value) ∈ entries ↔
          range.contains key = true ∧ filter.selects key.family = true ∧ lastWritten calls key = some value) ∧
    (∀ key, ((after calls).index.remove key).2 = lastWritten calls key) ∧
    {key | (lastWritten calls key).isSome}.encard = (after calls).index.size ∧
    (∀ entries : List Entry, (after ((entries.map fun e => .insert e.1 e.2) ++ [.snapshot])).cursors =
      [Cursor.ofStack (.list (.load entries))]) ∧
    ∀ (entries : Entries) range filter s, ((Source.ofEntries entries).seek range filter s).state.rest =
      firstShown range filter (entries.toList.drop
        (bisect (fun i => (entries.toList[i]?).any fun e => range.beforeStart e.1) 0 entries.size)) := by
  refine ⟨?_, get?_after calls, encard_lastWritten calls, fun entries => ?_, Source.rest_seek_ofEntries⟩
  · obtain ⟨c, hc, hstack⟩ := Option.map_eq_some_iff.mp (stack_of_snapshot calls later)
    refine ⟨c, hc, fun range filter => ⟨_, Cursor.reads_list hstack range filter, ?_, fun key value => ?_⟩⟩
    · exact (after calls).index.entries.ascending.filter _
    · rw [List.mem_filter, ← get?_after, SortedMap.get?_eq_some_iff, Bool.and_eq_true]
      exact and_comm.trans and_assoc
  · rw [after_concat, IndexCall.run, cursors_after_inserts, FieldIndex.snapshot, entries_after_inserts]
    rfl

/-- Entries of different values may have one key, if a value or an owner holds a separator. -/
example : (IndexCall.insertFieldIndex "r" "F" "a\x00b" ⟨"d", "u"⟩).effect? =
    (IndexCall.insertFieldIndex "r" "F" "a" ⟨"b", "d\x00u"⟩).effect? := by
  decide

end ProximitySearch
