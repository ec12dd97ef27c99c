import Mathlib.Tactic.Common
import ProximitySearch.Cursor.Bounded
import ProximitySearch.Cursor.Journal
import ProximitySearch.Cursor.List
import ProximitySearch.Proofs.KeyOrder

/-!
# What a walk shows

A walk from a state shows a list if its tops, one after each move on, are the members of the list in order,
and no move fails (`Source.Shows`). A source serves some entries if every seek, from every state, leaves a
state that shows the entries from the start of the range on that pass a test (`Source.Serves`). The test is
on keys and depends on the range only through its end, so a layer may seek again from a later start.

A list serves its entries, and the bounded and the journaled layer serve what the source below them serves.
The skip scan has a module of its own.
-/

namespace ProximitySearch

open Std

/-! ## Ranges and sorted entries -/

namespace KeyRange

theorem beforeStart_of_lt {range : KeyRange} {a b : Key} (hlt : compare a b = .lt)
    (h : range.beforeStart b = true) : range.beforeStart a = true := by
  unfold beforeStart at *
  split at h
  · exact h
  · simp only [Ordering.isLT_iff_eq_lt] at *
    exact TransCmp.lt_trans hlt h
  · simp [TransCmp.lt_of_lt_of_isLE hlt h]

theorem afterEnd_of_lt {range : KeyRange} {a b : Key} (hlt : compare a b = .lt)
    (h : range.afterEnd a = true) : range.afterEnd b = true := by
  unfold afterEnd at *
  split at h
  · exact h
  · simp only [Ordering.isGT_iff_eq_gt] at *
    exact TransCmp.gt_trans (OrientedCmp.gt_of_lt hlt) h
  · have := TransCmp.gt_of_gt_of_isGE (OrientedCmp.gt_of_lt hlt) h
    simp [this]

@[simp] theorem afterEnd_withStart (range : KeyRange) (first key : Key) :
    (range.withStart first).afterEnd key = range.afterEnd key := rfl

theorem beforeStart_withStart (range : KeyRange) (first key : Key) :
    (range.withStart first).beforeStart key = (compare key first).isLT := rfl

end KeyRange

abbrev Ascending (l : List Entry) : Prop := l.Pairwise fun a b => compare a.1 b.1 = .lt

theorem dropWhile_eq_filter {α : Type} {p : α → Bool} {l : List α}
    (h : l.Pairwise fun a b => p b = true → p a = true) :
    l.dropWhile p = l.filter fun a => !p a := by
  induction l with
  | nil => rfl
  | cons a rest ih =>
    obtain ⟨ha, hrest⟩ := List.pairwise_cons.mp h
    cases hp : p a with
    | true => simp [hp, ih hrest]
    | false =>
      have hall : ∀ b ∈ rest, p b = false := fun b hb => by
        by_contra hpb
        simp [ha b hb (by simpa using hpb)] at hp
      rw [List.dropWhile_cons_of_neg (by simp [hp]), List.filter_cons_of_pos (by simp [hp]),
        List.filter_eq_self.mpr (by simpa using hall)]

theorem takeWhile_eq_filter {α : Type} {p : α → Bool} {l : List α}
    (h : l.Pairwise fun a b => p b = true → p a = true) :
    l.takeWhile p = l.filter p := by
  induction l with
  | nil => rfl
  | cons a rest ih =>
    obtain ⟨ha, hrest⟩ := List.pairwise_cons.mp h
    cases hp : p a with
    | true => simp [hp, ih hrest]
    | false =>
      have hall : ∀ b ∈ rest, ¬p b = true := fun b hb hpb => by simp [ha b hb hpb] at hp
      rw [List.takeWhile_cons_of_neg (by simp [hp]), List.filter_cons_of_neg (by simp [hp]),
        List.filter_eq_nil_iff.mpr hall]

theorem dropWhile_beforeStart (entries : Entries) (range : KeyRange) :
    (entries.toList.dropWhile fun e => range.beforeStart e.1) =
      entries.toList.filter fun e => !range.beforeStart e.1 :=
  dropWhile_eq_filter (entries.ascending.imp fun hlt h => KeyRange.beforeStart_of_lt hlt h)

namespace Source

variable {σ : Type}

/-! ## Walks -/

def advance (src : Source σ) : Nat → σ → σ
  | 0, s => s
  | k + 1, s => src.advance k (src.next s).state

/-- From `s` on a walk shows the entries of `l` in order and then nothing, and no move on fails. -/
def Shows (src : Source σ) (s : σ) (l : List Entry) : Prop :=
  ∀ k, src.top (src.advance k s) = l[k]? ∧ (src.next (src.advance k s)).fault = none

theorem Shows.top {src : Source σ} {s : σ} {l : List Entry} (h : src.Shows s l) : src.top s = l.head? := by
  rw [List.head?_eq_getElem?]
  exact (h 0).1

theorem Shows.fault {src : Source σ} {s : σ} {l : List Entry} (h : src.Shows s l) : (src.next s).fault = none :=
  (h 0).2

theorem Shows.next {src : Source σ} {s : σ} {l : List Entry} (h : src.Shows s l) :
    src.Shows (src.next s).state l.tail := by
  intro k
  rw [List.getElem?_tail]
  exact h (k + 1)

/-- Collecting gives what a walk shows and ends after the last of it, if it may move on often enough. -/
theorem Shows.collectUpTo_eq {src : Source σ} {s : σ} {l : List Entry} (h : src.Shows s l) {count : Nat}
    (hcount : l.length ≤ count) : src.collectUpTo count s = (src.advance l.length s, .ok l) := by
  induction count generalizing s l with
  | zero =>
    obtain rfl := List.length_eq_zero_iff.mp (Nat.le_zero.mp hcount)
    rfl
  | succ count ih =>
    have htop := h.top
    cases l with
    | nil =>
      rw [List.head?_nil] at htop
      simp only [Source.collectUpTo, htop, List.length_nil, advance]
    | cons e l =>
      rw [List.head?_cons] at htop
      have hrest := ih h.next (Nat.le_of_succ_le_succ hcount)
      simp only [Source.collectUpTo, htop, h.fault, hrest, List.tail_cons, Except.map, List.length_cons, advance]

theorem Shows.collectUpTo {src : Source σ} {s : σ} {l : List Entry} (h : src.Shows s l) {count : Nat}
    (hcount : l.length ≤ count) : (src.collectUpTo count s).2 = .ok l := by
  rw [h.collectUpTo_eq hcount]

theorem Shows.top_collectUpTo {src : Source σ} {s : σ} {l : List Entry} (h : src.Shows s l) {count : Nat}
    (hcount : l.length ≤ count) : src.top (src.collectUpTo count s).1 = none := by
  rw [h.collectUpTo_eq hcount, (h l.length).1, List.getElem?_eq_none (Nat.le_refl _)]

theorem advance_of_next_eq {src : Source σ} {s : σ} (h : (src.next s).state = s) (k : Nat) : src.advance k s = s := by
  induction k with
  | zero => rfl
  | succ k ih => rw [advance, h, ih]

/-- A relation between states and lists that every move on keeps says what the walk shows. -/
theorem shows_of_step {src : Source σ} (R : σ → List Entry → Prop)
    (hstep : ∀ s l, R s l → src.top s = l.head? ∧ (src.next s).fault = none ∧ R (src.next s).state l.tail)
    {s : σ} {l : List Entry} (h : R s l) : src.Shows s l := by
  intro k
  induction k generalizing s l with
  | zero => exact ⟨(hstep s l h).1.trans List.head?_eq_getElem?, (hstep s l h).2.1⟩
  | succ k ih =>
    have := ih (hstep s l h).2.2
    rwa [List.getElem?_tail] at this

/-- Every seek, from every state, finds the entries from the range's start on that pass the test `shown`. -/
structure Serves (src : Source σ) (entries : Entries) (shown : KeyRange → FamilyFilter → Key → Bool) : Prop where
  shown_withStart : ∀ range first filter key, shown (range.withStart first) filter key = shown range filter key
  fault : ∀ range filter s, (src.seek range filter s).fault = none
  shows_seek : ∀ range filter s, src.Shows (src.seek range filter s).state
    (entries.toList.filter fun e => !range.beforeStart e.1 && shown range filter e.1)
  size_le : entries.size ≤ src.size

theorem Serves.congr {src : Source σ} {entries : Entries} {shown shown' : KeyRange → FamilyFilter → Key → Bool}
    (h : src.Serves entries shown) (heq : ∀ range filter key, shown range filter key = shown' range filter key) :
    src.Serves entries shown' := by
  obtain rfl : shown = shown' := by
    funext range filter key
    exact heq range filter key
  exact h

/-! ## Runs -/

/-- The reply to the last call of a seek and `k` moves on. -/
def sought (src : Source σ) (range : KeyRange) (filter : FamilyFilter) (s : σ) : Nat → Reply σ
  | 0 => src.seek range filter s
  | k + 1 => src.next (src.sought range filter s k).state

theorem advance_succ (src : Source σ) (k : Nat) (s : σ) :
    src.advance (k + 1) s = (src.next (src.advance k s)).state := by
  induction k generalizing s with
  | zero => rfl
  | succ k ih => exact ih _

theorem state_sought (src : Source σ) (range : KeyRange) (filter : FamilyFilter) (s : σ) (k : Nat) :
    (src.sought range filter s k).state = src.advance k (src.seek range filter s).state := by
  induction k with
  | zero => rfl
  | succ k ih => rw [sought, ih, advance_succ]

theorem Serves.sought {src : Source σ} {entries : Entries} {shown : KeyRange → FamilyFilter → Key → Bool}
    (h : src.Serves entries shown) (range : KeyRange) (filter : FamilyFilter) (s : σ) (k : Nat) :
    (src.sought range filter s k).fault = none ∧ src.top (src.sought range filter s k).state =
      (entries.toList.filter fun e => !range.beforeStart e.1 && shown range filter e.1)[k]? := by
  have hshows := h.shows_seek range filter s
  refine ⟨?_, by rw [state_sought]; exact (hshows k).1⟩
  cases k with
  | zero => exact h.fault range filter s
  | succ k => rw [Source.sought, state_sought]; exact (hshows k).2

theorem Serves.collect {src : Source σ} {entries : Entries} {shown : KeyRange → FamilyFilter → Key → Bool}
    (h : src.Serves entries shown) (range : KeyRange) (filter : FamilyFilter) (s : σ) :
    (src.collect (src.seek range filter s).state).2 =
      .ok (entries.toList.filter fun e => !range.beforeStart e.1 && shown range filter e.1) := by
  refine (h.shows_seek range filter s).collectUpTo ?_
  exact Nat.le_succ_of_le (Nat.le_trans (List.length_filter_le _ _) h.size_le)

/-- States that a seek, from any state, and moves on lead to. -/
def Reached (src : Source σ) (s : σ) : Prop :=
  ∃ range filter start k, (src.sought range filter start k).state = s

theorem reached_seek (src : Source σ) (range : KeyRange) (filter : FamilyFilter) (s : σ) :
    src.Reached (src.seek range filter s).state :=
  ⟨range, filter, s, 0, rfl⟩

theorem Reached.next {src : Source σ} {s : σ} (h : src.Reached s) : src.Reached (src.next s).state := by
  obtain ⟨range, filter, start, k, rfl⟩ := h
  exact ⟨range, filter, start, k + 1, rfl⟩

/-- A property that seeks establish and moves on keep holds of every state reached. -/
theorem Reached.induction {src : Source σ} {P : σ → Prop} (hseek : ∀ range filter s, P (src.seek range filter s).state)
    (hnext : ∀ s, P s → P (src.next s).state) {s : σ} (h : src.Reached s) : P s := by
  obtain ⟨range, filter, start, k, rfl⟩ := h
  induction k with
  | zero => exact hseek range filter start
  | succ k ih => exact hnext _ ih

/-- Two sources over the same states answer every run alike. -/
structure SameWalk (a b : Source σ) : Prop where
  top : a.top = b.top
  seek : a.seek = b.seek
  next : ∀ s, a.Reached s → a.next s = b.next s

theorem SameWalk.sought {a b : Source σ} (h : a.SameWalk b) (range : KeyRange) (filter : FamilyFilter) (s : σ)
    (k : Nat) : a.sought range filter s k = b.sought range filter s k := by
  induction k with
  | zero => rw [Source.sought, Source.sought, h.seek]
  | succ k ih => rw [Source.sought, h.next _ ⟨range, filter, s, k, rfl⟩, ih, Source.sought]

/-- The same walk, whose searches may take another number of rounds. -/
def withSize (src : Source σ) (size : Nat) : Source σ :=
  { src with size }

theorem advance_withSize (src : Source σ) (size k : Nat) (s : σ) :
    (src.withSize size).advance k s = src.advance k s := by
  induction k generalizing s with
  | zero => rfl
  | succ k ih => exact ih _

theorem Serves.withSize {src : Source σ} {entries : Entries} {shown : KeyRange → FamilyFilter → Key → Bool}
    (h : src.Serves entries shown) {size : Nat} (hsize : entries.size ≤ size) :
    (src.withSize size).Serves entries shown where
  shown_withStart := h.shown_withStart
  fault := h.fault
  size_le := hsize
  shows_seek range filter s k := by
    rw [advance_withSize]
    exact h.shows_seek range filter s k

/-! ## Lists -/

section List

/-- What a list shows of a range: entries up to its end, of the families selected. -/
def listShown (range : KeyRange) (filter : FamilyFilter) (key : Key) : Bool :=
  !range.afterEnd key && filter.selects key.family

theorem firstShown_spec (range : KeyRange) (filter : FamilyFilter) {l : List Entry} (hl : Ascending l) :
    Ascending (firstShown range filter l) ∧
      (firstShown range filter l).filter (listShown range filter ·.1) = l.filter (listShown range filter ·.1) ∧
      ∀ e ∈ (firstShown range filter l).head?, listShown range filter e.1 = true := by
  induction l with
  | nil => simp [firstShown]
  | cons e rest ih =>
    obtain ⟨he, hrest⟩ := List.pairwise_cons.mp hl
    unfold firstShown
    split
    · next hafter =>
      refine ⟨.nil, ?_, by simp⟩
      symm
      rw [List.filter_nil, List.filter_eq_nil_iff]
      intro d hd
      have hd : range.afterEnd d.1 = true := by
        rcases List.mem_cons.mp hd with rfl | hd
        · exact hafter
        · exact KeyRange.afterEnd_of_lt (he d hd) hafter
      simp [listShown, hd]
    · next hafter =>
      split
      · next hselects => exact ⟨hl, rfl, by simp [listShown, hafter, hselects]⟩
      · next hselects =>
        rw [List.filter_cons_of_neg (by simp [listShown, hselects])]
        exact ih hrest

theorem shows_ofEntries {entries : Entries} {s : ListState} {l : List Entry} (hrest : Ascending s.rest)
    (hl : l = s.rest.filter (listShown s.range s.filter ·.1))
    (hhead : ∀ e ∈ s.rest.head?, listShown s.range s.filter e.1 = true) : (ofEntries entries).Shows s l := by
  refine shows_of_step (fun s l => Ascending s.rest ∧ l = s.rest.filter (listShown s.range s.filter ·.1) ∧
    ∀ e ∈ s.rest.head?, listShown s.range s.filter e.1 = true) ?_ ⟨hrest, hl, hhead⟩
  rintro ⟨rest, range, filter⟩ l ⟨hrest, rfl, hhead⟩
  cases rest with
  | nil => simp [ofEntries, firstShown]
  | cons e rest =>
    have hcons : (e :: rest).filter (listShown range filter ·.1) = e :: rest.filter (listShown range filter ·.1) :=
      List.filter_cons_of_pos (hhead e (by simp))
    obtain ⟨hsorted, hfilter, hfirst⟩ := firstShown_spec range filter (List.pairwise_cons.mp hrest).2
    dsimp only
    rw [hcons]
    exact ⟨rfl, rfl, hsorted, hfilter.symm, hfirst⟩

theorem ofEntries_serves (entries : Entries) : (ofEntries entries).Serves entries listShown where
  shown_withStart _ _ _ _ := rfl
  fault _ _ _ := rfl
  size_le := Nat.le_refl _
  shows_seek range filter s := by
    have hsorted : Ascending (entries.toList.dropWhile fun e => range.beforeStart e.1) :=
      entries.ascending.sublist (List.dropWhile_suffix _).sublist
    obtain ⟨hfirst, hfilter, hhead⟩ := firstShown_spec range filter hsorted
    refine shows_ofEntries hfirst ?_ hhead
    rw [show (ofEntries entries).seek range filter s = ⟨⟨firstShown range filter
      (entries.toList.dropWhile fun e => range.beforeStart e.1), range, filter⟩, none⟩ from rfl]
    dsimp only
    rw [hfilter, dropWhile_beforeStart, List.filter_filter]
    exact List.filter_congr fun e _ => Bool.and_comm _ _

theorem shows_fresh_ofEntries (entries : Entries) : (ofEntries entries).Shows (ofEntries entries).fresh [] :=
  shows_ofEntries .nil rfl (by simp [ofEntries])

end List

/-! ## Journals -/

/-- What the seeks on record asked for, in order. -/
def requests (s : JournalState σ) : List (KeyRange × FamilyFilter) :=
  s.seeks.map fun record => (record.range, record.filter)

@[simp] theorem requests_seek (below : Source σ) (range : KeyRange) (filter : FamilyFilter) (s : JournalState σ) :
    requests (below.journaled.seek range filter s).state = requests s ++ [(range, filter)] := by
  simp [requests, journaled]

theorem journaled_serves {below : Source σ} {entries : Entries} {shown : KeyRange → FamilyFilter → Key → Bool}
    (h : below.Serves entries shown) : below.journaled.Serves entries shown where
  shown_withStart := h.shown_withStart
  fault range filter s := h.fault range filter s.below
  size_le := h.size_le
  shows_seek range filter s :=
    shows_of_step (fun s l => below.Shows s.below l) (fun _ _ hs => ⟨hs.top, hs.fault, hs.next⟩)
      (h.shows_seek range filter s.below)

/-! ## Bounds -/

section Bounded

variable {below : Source σ}

theorem shows_bounded {s : BoundedState σ} {range : KeyRange} {l : List Entry} (hrange : s.range = some range)
    (h : below.Shows s.below l) : below.bounded.Shows s (l.takeWhile fun e => range.contains e.1) := by
  refine shows_of_step (fun s out => ∃ l, s.range = some range ∧ below.Shows s.below l ∧
    out = l.takeWhile fun e => range.contains e.1) ?_ ⟨l, hrange, h, rfl⟩
  rintro ⟨state, range?⟩ out ⟨l, hrange, h, rfl⟩
  obtain rfl : range? = some range := hrange
  have htop : below.boundedTop ⟨state, some range⟩ = (l.takeWhile fun e => range.contains e.1).head? := by
    simp only [boundedTop, h.top, Option.bind_some]
    cases l with
    | nil => rfl
    | cons e rest => cases he : range.contains e.1 <;> simp [he]
  refine ⟨htop, ?_⟩
  simp only [bounded, htop]
  split
  · next hnone =>
    have hnil : (l.takeWhile fun e => range.contains e.1) = [] := by simpa using hnone
    exact ⟨rfl, l, rfl, h, by rw [hnil]; rfl⟩
  · next hsome =>
    refine ⟨h.fault, l.tail, rfl, h.next, ?_⟩
    cases l with
    | nil => rfl
    | cons e rest => cases he : range.contains e.1 <;> simp_all

theorem shows_fresh_bounded (below : Source σ) : below.bounded.Shows below.bounded.fresh [] := by
  refine shows_of_step (fun s l => s.range = none ∧ l = []) ?_ ⟨rfl, rfl⟩
  rintro ⟨state, range?⟩ l ⟨rfl, rfl⟩
  simp [bounded, boundedTop]

theorem bounded_serves {entries : Entries} {shown : KeyRange → FamilyFilter → Key → Bool}
    (h : below.Serves entries shown) :
    below.bounded.Serves entries fun range filter key => !range.afterEnd key && shown range filter key where
  shown_withStart range first filter key := by simp [h.shown_withStart]
  fault range filter s := h.fault range filter s.below
  size_le := h.size_le
  shows_seek range filter s := by
    have hshows := shows_bounded (s := (below.bounded.seek range filter s).state) rfl
      (h.shows_seek range filter s.below)
    -- the entries below start in the range, so those before the first outside are all that are inside
    have hdown : (entries.toList.filter fun e => !range.beforeStart e.1 && shown range filter e.1).Pairwise
        fun a b => range.contains b.1 = true → range.contains a.1 = true := by
      refine (entries.ascending.sublist List.filter_sublist).imp_of_mem fun ha _ hlt hb => ?_
      have ha := (List.mem_filter.mp ha).2
      simp only [KeyRange.contains, Bool.and_eq_true, Bool.not_eq_true'] at ha hb ⊢
      refine ⟨ha.1, ?_⟩
      by_contra hafter
      have := KeyRange.afterEnd_of_lt hlt (by simpa using hafter)
      simp [hb.2] at this
    rw [takeWhile_eq_filter hdown, List.filter_filter] at hshows
    convert hshows using 3 with e
    simp only [KeyRange.contains]
    cases range.beforeStart e.1 <;> simp

theorem reached_below_bounded {s : BoundedState σ} (h : below.bounded.Reached s) : below.Reached s.below := by
  refine h.induction (P := fun s => below.Reached s.below) (fun range filter s => reached_seek ..) fun s hs => ?_
  simp only [bounded]
  split
  · exact hs
  · exact hs.next

theorem sameWalk_bounded {other : Source σ} (h : below.SameWalk other) : below.bounded.SameWalk other.bounded where
  top := by
    funext s
    simp only [bounded, boundedTop, h.top]
  seek := by
    funext range filter s
    simp only [bounded, h.seek]
  next s hs := by
    simp only [bounded, boundedTop, ← h.top, h.next _ (reached_below_bounded hs)]

end Bounded

end Source

end ProximitySearch
