import ProximitySearch.Cursor
import ProximitySearch.Proofs.SkipScan

/-!
# Stacks of walks

A stack of skip scans and bounded walks over a list, however deep, shows the entries of the list that pass
one test (`Stack.keeps`): the key is in the range sought, its qualifier is a candidate of every skip scan,
and its family is that of the innermost skip scan, or one that the seek selects where there is none.

`history_shows_kept_entries` says so of every cursor in hand after any history of calls. It is by
induction on the stack (`serves_within`), each layer seeking again in the one below it. `Stack.sourceWithin`
names the number of rounds that a search may take, in order to say that no search is cut short by it.
-/

namespace ProximitySearch

/-! ## What a stack keeps -/

namespace Stack

/-- Entries at the bottom of a stack whose layers are skip scans and bounded walks. -/
def entries? : Stack → Option Entries
  | .list entries => some entries
  | .skipScan _ _ below | .bounded below => below.entries?
  | .overreading _ | .faulty _ _ => none

/-- Candidates of the skip scans, from the outermost on. -/
def spaces : Stack → List SearchSpace
  | .skipScan space _ below => space :: below.spaces
  | .bounded below | .faulty _ below => below.spaces
  | .list _ | .overreading _ => []

def scannedFamily? : Stack → Option Bytes
  | .skipScan _ family below => some (below.scannedFamily?.getD family)
  | .bounded below | .faulty _ below => below.scannedFamily?
  | .list _ | .overreading _ => none

/-- Whether the family of a key is the one scanned, or selected where none is. -/
def selectsFamily (stack : Stack) (filter : FamilyFilter) (key : Key) : Bool :=
  match stack.scannedFamily? with
  | some family => key.family == family
  | none => filter.selects key.family

/-- Whether a key is a candidate of every skip scan. -/
def isCandidate (stack : Stack) (key : Key) : Bool :=
  stack.spaces.all fun space => key.qualifier ∈ space

/-- Whether a stack shows the entry of a key after a seek. -/
def keeps (stack : Stack) (range : KeyRange) (filter : FamilyFilter) (key : Key) : Bool :=
  range.contains key && stack.isCandidate key && stack.selectsFamily filter key

/-! ## Rounds -/

/-- The walk over a stack, as `Stack.source`, with a number of rounds given for the searches of its skip
scans. -/
def sourceWithin (rounds : Nat) : (stack : Stack) → Source stack.State
  | .list entries => (Source.ofEntries entries).withSize rounds
  | .overreading entries => (Source.overreading entries).withSize rounds
  | .skipScan space family below => (below.sourceWithin rounds).skipScan space family
  | .bounded below => (below.sourceWithin rounds).bounded
  | .faulty plan below => (below.sourceWithin rounds).faulty plan

theorem source_eq_sourceWithin {stack : Stack} {entries : Entries} (h : stack.entries? = some entries) :
    stack.source = stack.sourceWithin entries.size := by
  induction stack with
  | list entries =>
    obtain rfl := Option.some.inj h
    rfl
  | overreading entries => simp [entries?] at h
  | skipScan space family below ih => exact congrArg (fun src => src.skipScan space family) (ih h)
  | bounded below ih => exact congrArg Source.bounded (ih h)
  | faulty plan below ih => simp [entries?] at h

theorem selectsFamily_only (family : Bytes) (below : Stack) (space : SearchSpace) (filter : FamilyFilter)
    (key : Key) :
    below.selectsFamily (.only family) key = (Stack.skipScan space family below).selectsFamily filter key := by
  unfold selectsFamily
  rw [scannedFamily?]
  cases below.scannedFamily? with
  | none => simp [FamilyFilter.only, FamilyFilter.selects, Bool.beq_eq_decide_eq]
  | some inner => rfl

/-- With at least as many rounds as entries, a stack serves the entries that it keeps. -/
theorem serves_within {stack : Stack} {entries : Entries} (h : stack.entries? = some entries) {rounds : Nat}
    (hrounds : entries.size ≤ rounds) :
    (stack.sourceWithin rounds).Serves entries fun range filter key =>
      !range.afterEnd key && stack.isCandidate key && stack.selectsFamily filter key := by
  induction stack with
  | list entries =>
    obtain rfl := Option.some.inj h
    refine ((Source.ofEntries_serves entries).withSize hrounds).congr fun range filter key => ?_
    simp [Source.listShown, isCandidate, spaces, selectsFamily, scannedFamily?]
  | overreading entries => simp [entries?] at h
  | skipScan space family below ih =>
    refine (Source.skipScan_serves (ih h) space family).congr fun range filter key => ?_
    rw [selectsFamily_only family below space filter key]
    simp only [isCandidate, spaces, List.all_cons]
    cases range.afterEnd key <;> cases decide (key.qualifier ∈ space) <;> simp
  | bounded below ih =>
    refine (Source.bounded_serves (ih h)).congr fun range filter key => ?_
    cases range.afterEnd key
    · rfl
    · rfl
  | faulty plan below ih => simp [entries?] at h

/-- With at least as many rounds as entries, the number of rounds makes no difference. -/
theorem sameWalk_within {stack : Stack} {entries : Entries} (h : stack.entries? = some entries) {rounds rounds' : Nat}
    (hrounds : entries.size ≤ rounds) (hrounds' : entries.size ≤ rounds') :
    (stack.sourceWithin rounds).SameWalk (stack.sourceWithin rounds') := by
  induction stack with
  | list entries => exact ⟨rfl, rfl, fun _ _ => rfl⟩
  | overreading entries => simp [entries?] at h
  | skipScan space family below ih =>
    have hbelow : below.entries? = some entries := h
    exact Source.sameWalk_skipScan (ih h) (serves_within hbelow hrounds) (serves_within hbelow hrounds').size_le
      space family
  | bounded below ih => exact Source.sameWalk_bounded (ih h)
  | faulty plan below ih => simp [entries?] at h

theorem shows_fresh {stack : Stack} {entries : Entries} (h : stack.entries? = some entries) :
    stack.source.Shows stack.source.fresh [] := by
  cases stack with
  | list entries => exact Source.shows_fresh_ofEntries entries
  | overreading entries => simp [entries?] at h
  | skipScan space family below => exact Source.shows_fresh_skipScan below.source space family
  | bounded below => exact Source.shows_fresh_bounded below.source
  | faulty plan below => simp [entries?] at h

end Stack

/-! ## Histories -/

/-- A call on one of the cursors in hand, named by its place among them. -/
inductive Call where
  | seek (cursor : Nat) (range : KeyRange) (filter : FamilyFilter)
  | next (cursor : Nat)
  | copy (cursor : Nat)
deriving DecidableEq

def Call.run (cursors : List Cursor) : Call → List Cursor
  | .seek i range filter => cursors.modify i fun c => (c.seek range filter).state
  | .next i => cursors.modify i fun c => c.next.state
  | .copy i => cursors ++ cursors[i]?.toList.map Cursor.copy

namespace Cursor

/-- The cursors in hand after some calls, from one new cursor on. -/
def history (stack : Stack) (calls : List Call) : List Cursor :=
  calls.foldl Call.run [ofStack stack]

/-- The reply to the last call of a seek and `k` moves on. -/
def sought (c : Cursor) (range : KeyRange) (filter : FamilyFilter) : Nat → Reply Cursor
  | 0 => c.seek range filter
  | k + 1 => (c.sought range filter k).state.next

def advance (c : Cursor) : Nat → Cursor
  | 0 => c
  | k + 1 => (c.advance k).next.state

theorem sought_eq (c : Cursor) (range : KeyRange) (filter : FamilyFilter) (k : Nat) :
    c.sought range filter k = ⟨⟨c.stack, (c.stack.source.sought range filter c.state k).state⟩,
      (c.stack.source.sought range filter c.state k).fault⟩ := by
  induction k with
  | zero => rfl
  | succ k ih =>
    rw [sought, ih]
    rfl

theorem advance_eq (c : Cursor) (k : Nat) : c.advance k = ⟨c.stack, c.stack.source.advance k c.state⟩ := by
  induction k with
  | zero => rfl
  | succ k ih =>
    rw [advance, ih, Source.advance_succ]
    rfl

theorem stack_of_mem_run {stack : Stack} {cursors : List Cursor} (h : ∀ c ∈ cursors, c.stack = stack) (call : Call) :
    ∀ c ∈ call.run cursors, c.stack = stack := by
  have hmodify {i : Nat} {f : Cursor → Cursor} (hf : ∀ c, (f c).stack = c.stack) :
      ∀ c ∈ cursors.modify i f, c.stack = stack := by
    intro c hc
    obtain ⟨j, hj⟩ := List.mem_iff_getElem?.mp hc
    rw [List.getElem?_modify] at hj
    obtain ⟨d, hd, rfl⟩ := Option.map_eq_some_iff.mp hj
    have hstack := h d (List.mem_of_getElem? hd)
    split
    · rw [hf, hstack]
    · exact hstack
  intro c hc
  cases call with
  | seek i range filter => exact hmodify (f := fun d => (d.seek range filter).state) (fun _ => rfl) c hc
  | next i => exact hmodify (f := fun d => d.next.state) (fun _ => rfl) c hc
  | copy i =>
    rcases List.mem_append.mp hc with hc | hc
    · exact h c hc
    · obtain ⟨d, hd, rfl⟩ := List.mem_map.mp hc
      exact h d (List.mem_of_getElem? (Option.mem_toList.mp hd))

theorem stack_of_mem_history {stack : Stack} (calls : List Call) : ∀ c ∈ history stack calls, c.stack = stack := by
  have hrun (cursors : List Cursor) (h : ∀ c ∈ cursors, c.stack = stack) :
      ∀ c ∈ calls.foldl Call.run cursors, c.stack = stack := by
    induction calls generalizing cursors with
    | nil => exact h
    | cons call calls ih => exact ih _ (stack_of_mem_run h call)
  exact hrun _ (by simp [ofStack])

end Cursor

/-- Whatever was done before, a seek and the moves on after it succeed and show the entries that the stack
keeps, in order; more rounds for the searches would change nothing; and a new cursor or copy shows nothing
before its first seek. -/
theorem history_shows_kept_entries {stack : Stack} {entries : Entries} (hstack : stack.entries? = some entries)
    (calls : List Call) {c : Cursor} (hc : c ∈ Cursor.history stack calls) (range : KeyRange)
    (filter : FamilyFilter) :
    (∀ k, (c.sought range filter k).fault = none ∧ (c.sought range filter k).state.top =
      (entries.toList.filter fun e => stack.keeps range filter e.1)[k]?) ∧
    (∀ rounds, entries.size ≤ rounds → ∀ k, (c.stack.sourceWithin rounds).sought range filter c.state k =
      c.stack.source.sought range filter c.state k) ∧
    ∀ k, ((Cursor.ofStack stack).advance k).top = none ∧ (c.copy.advance k).top = none := by
  obtain rfl := Cursor.stack_of_mem_history calls c hc
  have hsource := Stack.source_eq_sourceWithin hstack
  refine ⟨fun k => ?_, fun rounds hrounds k => ?_, fun k => ?_⟩
  · obtain ⟨hfault, htop⟩ := (Stack.serves_within hstack (Nat.le_refl _)).sought range filter c.state k
    rw [← hsource] at hfault htop
    rw [Cursor.sought_eq]
    refine ⟨hfault, htop.trans ?_⟩
    congr 2
    funext e
    simp only [Stack.keeps, KeyRange.contains, Bool.and_assoc]
  · rw [hsource]
    exact (Stack.sameWalk_within hstack hrounds (Nat.le_refl _)).sought range filter c.state k
  · have hfresh : ((Cursor.ofStack c.stack).advance k).top = none := by
      rw [Cursor.advance_eq]
      exact (Stack.shows_fresh hstack k).1
    exact ⟨hfresh, hfresh⟩

def twoRows : Entries :=
  .ofList [(⟨[1], [5], [1]⟩, [11]), (⟨[1], [5], [3]⟩, [13]), (⟨[1], [9], [3]⟩, [19]), (⟨[2], [5], [2]⟩, [22]),
    (⟨[2], [5], [3]⟩, [23])]

/-- A scan over a bounded walk over a scan of another family. -/
def nestedScans : Stack :=
  .skipScan (.ofList [[1], [3]]) [9] (.bounded (.skipScan (.ofList [[2], [3]]) [5] (.list twoRows)))

/-- The candidate of both scans, in the second row, is what a second seek and one move on show. -/
theorem history_shows_kept_entries_nested :
    nestedScans.entries? = some twoRows ∧
      ((Cursor.ofStack nestedScans).seek .all .any).state.next.state ∈
        Cursor.history nestedScans [.seek 0 .all .any, .next 0, .copy 0] ∧
      ((((Cursor.ofStack nestedScans).seek .all .any).state.next.state.sought .all .any 1).state.top =
        some (⟨[2], [5], [3]⟩, [23])) := by
  have hmem : ((Cursor.ofStack nestedScans).seek .all .any).state.next.state ∈
      Cursor.history nestedScans [.seek 0 .all .any, .next 0, .copy 0] := List.mem_of_getElem? (i := 0) rfl
  exact ⟨rfl, hmem, ((history_shows_kept_entries (by rfl : nestedScans.entries? = some twoRows) _ hmem .all .any).1
    1).2.trans (by decide)⟩

end ProximitySearch
