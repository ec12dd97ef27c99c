import ProximitySearch.Proofs.FailedLookup

/-!
# Skip scans that go on after a failure

A call on a scan that fails is left early, and the next call goes on from where it was left. `Source.trail` is
a history of calls on a walk, any of which may have failed, with the range of the last seek and the faults of
the last seek and of the last call.

Where a scan stands is kept from call to call (`Trail.Guarded`): in the range if the last seek did not fail, at
a candidate if the last call did not. A seek keeps it and a move on does (`guarded_seek`, `guarded_next`), and so
does a history (`guarded_trail`). If only moves on fail, a scan does not stray at all (`interruptedScan_top`).

The conditions are needed. A scan whose jump fails stays at the entry that it was about to leave, and one whose
seek fails shows the entry of the seek before it (`interruptedScan_strays`).
-/

namespace ProximitySearch.Source

open Std

variable {σ : Type}

/-! ## Histories -/

/-- A call on a walk. -/
inductive Move where
  | seek (range : KeyRange) (filter : FamilyFilter)
  | next

/-- What a history of calls leaves. The range is that of the last seek, and holds every key before the first. -/
structure Trail (σ : Type) where
  state : σ
  range : KeyRange
  /-- Fault of the last seek. -/
  seekFault : Option StorageFault
  /-- Fault of the last call. -/
  fault : Option StorageFault

/-- The trail after one more call. -/
def Trail.move (src : Source σ) (t : Trail σ) : Move → Trail σ
  | .seek range filter =>
    let reply := src.seek range filter t.state
    ⟨reply.state, range, reply.fault, reply.fault⟩
  | .next =>
    let reply := src.next t.state
    { t with state := reply.state, fault := reply.fault }

/-- Makes the calls on a new copy, each of them whether the calls before it failed or not. -/
def trail (src : Source σ) (moves : List Move) : Trail σ :=
  moves.foldl (Trail.move src) ⟨src.fresh, .all, none, none⟩

/-! ## Sources below -/

/-- Calls that fail leave a walk at the entry it stood at. -/
structure StaysOnFault (src : Source σ) : Prop where
  seek : ∀ range filter s, (src.seek range filter s).fault ≠ none →
    src.top (src.seek range filter s).state = src.top s
  next : ∀ s, (src.next s).fault ≠ none → src.top (src.next s).state = src.top s

/-- Every seek succeeds, in whatever state. -/
def SeeksSucceed (src : Source σ) : Prop :=
  ∀ range filter s, (src.seek range filter s).fault = none

theorem ofEntries_faulty_staysOnFault (entries : Entries) (plan : FaultPlan) :
    ((ofEntries entries).faulty plan).StaysOnFault where
  seek range filter s hfault := by
    simp only [faulty] at hfault ⊢
    split at hfault
    · next hreached => rw [if_pos hreached]
    · exact absurd rfl hfault
  next s hfault := by
    simp only [faulty] at hfault ⊢
    split at hfault
    · next hreached => rw [if_pos hreached]
    · exact absurd rfl hfault

theorem ofEntries_faulty_seeksSucceed (entries : Entries) {plan : FaultPlan} (hplan : plan.firstSeek = none) :
    ((ofEntries entries).faulty plan).SeeksSucceed := by
  intro range filter s
  simp [faulty, hplan, FaultPlan.reached, ofEntries]

/-! ## Searches -/

section Scan

variable {below : Source σ} {entries : Entries} {valid : σ → Prop} (h : below.Ascends entries valid)
  (hstays : below.StaysOnFault) (space : SearchSpace) (family : Bytes)
include h hstays

/-- Where a search ends, be it by a fault: on show is what it started from or a greater key, not past the range, and a
candidate if there was no fault. -/
theorem Ascends.settle_ends {P : Key → Prop} (hup : ∀ a b, P a → compare a b = .lt → P b) (rounds : Nat)
    {s : SkipState σ} (hs : valid s.below) (htop : ∀ e ∈ below.top s.below, P e.1)
    (hrounds : ∀ e ∈ below.top s.below, entriesFrom entries e.1 < rounds) :
    (Source.settle below space family rounds s).state.range = s.range ∧
      ((Source.settle below space family rounds s).state.exhausted = false →
        ∀ e ∈ below.top (Source.settle below space family rounds s).state.below,
          P e.1 ∧ s.range.afterEnd e.1 = false ∧
            ((Source.settle below space family rounds s).fault = none → e.1.qualifier ∈ space)) := by
  induction rounds generalizing s with
  | zero => exact ⟨rfl, fun _ e he => absurd (hrounds e he) (by omega)⟩
  | succ rounds ih =>
    rw [Source.settle]
    split
    · next hnone => exact ⟨rfl, fun _ e he => by simp [hnone] at he⟩
    · next key value heq =>
      have hkey := htop (key, value) heq
      dsimp only
      split_ifs with hafter hmem hend
      · exact ⟨rfl, fun hopen => by simp at hopen⟩
      · refine ⟨rfl, fun _ e he => ?_⟩
        obtain rfl := Option.some.inj (heq.symm.trans he)
        exact ⟨hkey, by simpa using hafter, fun _ => hmem⟩
      · exact ⟨rfl, fun hopen => by simp at hopen⟩
      · split
        · next fault hfault =>
          -- the jump failed, and the scan is where it jumped from
          refine ⟨rfl, fun _ e he => ?_⟩
          have hsame := hstays.seek (s.range.withStart (space.jumpTarget key)) (.only family) s.below (by simp [hfault])
          obtain rfl := Option.some.inj (heq.symm.trans (hsame.symm.trans he))
          exact ⟨hkey, by simpa using hafter, fun hnone => by simp at hnone⟩
        · next hfault =>
          have hvalid := h.seek (s.range.withStart (space.jumpTarget key)) (.only family) s.below hs
          have hlt := h.lt_of_jump space family hs hfault
          refine ih hvalid (fun e he => hup key e.1 hkey (hlt e he)) fun e he => ?_
          have hless := entriesFrom_lt (h.top_mem s.below hs _ heq) (hlt e he)
          have hbound := hrounds _ heq
          omega

omit h hstays in
theorem SeeksSucceed.settle (hseeks : below.SeeksSucceed) (rounds : Nat) (s : SkipState σ) :
    (Source.settle below space family rounds s).fault = none := by
  induction rounds generalizing s with
  | zero => rfl
  | succ rounds ih =>
    rw [Source.settle]
    split
    · rfl
    · dsimp only
      split_ifs
      · rfl
      · rfl
      · rfl
      · rw [hseeks]
        exact ih _

omit hstays in
theorem Ascends.rounds_suffice {s : σ} (e : Entry) (_ : e ∈ below.top s) :
    entriesFrom entries e.1 < below.size + 1 :=
  Nat.lt_succ_of_le (Nat.le_trans (entriesFrom_le entries e.1) h.size_le)

/-! ## The invariant -/

/-- What a scan keeps through a history of calls. -/
structure Trail.Guarded (below : Source σ) (valid : σ → Prop) (space : SearchSpace) (t : Trail (SkipState σ)) :
    Prop where
  valid : valid t.state.below
  range : t.state.exhausted = false → t.state.range = t.range
  inRange : t.seekFault = none ∨ below.SeeksSucceed → t.state.exhausted = false →
    ∀ e ∈ below.top t.state.below, t.range.contains e.1 = true
  inside : t.fault = none → t.state.exhausted = false → ∀ e ∈ below.top t.state.below, t.range.afterEnd e.1 = false
  candidate : t.fault = none ∨ below.SeeksSucceed → t.state.exhausted = false →
    ∀ e ∈ below.top t.state.below, e.1.qualifier ∈ space

/-- A search keeps the invariant, also one that fails. -/
theorem guarded_settle {s : SkipState σ} (hs : valid s.below) (seekFault : Option StorageFault)
    (hstart : seekFault = none ∨ below.SeeksSucceed →
      ∀ e ∈ below.top s.below, s.range.beforeStart e.1 = false) :
    Trail.Guarded below valid space ⟨(settle below space family (below.size + 1) s).state, s.range, seekFault,
      (settle below space family (below.size + 1) s).fault⟩ := by
  obtain ⟨hrange, hends⟩ := h.settle_ends hstays space family
    (P := fun key => seekFault = none ∨ below.SeeksSucceed → s.range.beforeStart key = false)
    (fun _ _ ha hlt hnone => s.range.not_beforeStart_of_lt (ha hnone) hlt) (below.size + 1) hs
    (fun e he hnone => hstart hnone e he) h.rounds_suffice
  refine ⟨(h.settle (P := fun _ => True) space family (fun _ _ _ _ => trivial) _ hs fun _ _ => trivial).1,
    fun _ => hrange, fun hnone hopen e he => ?_, fun _ hopen e he => (hends hopen e he).2.1,
    fun hfault hopen e he => (hends hopen e he).2.2 ?_⟩
  · obtain ⟨hbefore, hafter, -⟩ := hends hopen e he
    simp [KeyRange.contains, hbefore hnone, hafter]
  · exact hfault.elim id fun hseeks => hseeks.settle space family _ s

theorem guarded_seek {t : Trail (SkipState σ)} (ht : t.Guarded below valid space) (range : KeyRange)
    (filter : FamilyFilter) :
    (t.move (below.skipScan space family) (.seek range filter)).Guarded below valid space := by
  simp only [Trail.move, skipScan]
  split
  · exact ⟨ht.valid, fun hopen => by simp at hopen, fun _ hopen => by simp at hopen, fun _ hopen => by simp at hopen,
      fun _ hopen => by simp at hopen⟩
  · have hvalid := h.seek range (.only family) t.state.below ht.valid
    split
    · next fault hfault =>
      -- the range is the new one, and the entry on show the old one
      have hfails : ¬(some fault = none ∨ below.SeeksSucceed) := by
        intro hnone
        have hseeks : below.SeeksSucceed := hnone.resolve_left (by simp)
        exact absurd (hfault.symm.trans (hseeks _ _ _)) (by simp)
      exact ⟨hvalid, fun _ => rfl, fun hnone => absurd hnone hfails, fun hnone => by simp at hnone,
        fun hnone => absurd hnone hfails⟩
    · next hfault =>
      exact guarded_settle h hstays space family (s := ⟨_, range, false, 0⟩) hvalid _ fun _ =>
        h.start_le range (.only family) t.state.below ht.valid hfault

theorem guarded_next {t : Trail (SkipState σ)} (ht : t.Guarded below valid space) :
    (t.move (below.skipScan space family) .next).Guarded below valid space := by
  simp only [Trail.move, skipScan]
  split
  · next hstop =>
    have hnone (hopen : t.state.exhausted = false) : below.top t.state.below = none := by simpa [hopen] using hstop
    exact ⟨ht.valid, ht.range, ht.inRange, fun _ hopen e he => by simp [hnone hopen] at he,
      fun _ hopen e he => by simp [hnone hopen] at he⟩
  · next hgoes =>
    obtain ⟨hopen, hshown⟩ : t.state.exhausted = false ∧ ¬below.top t.state.below = none := by simpa using hgoes
    have hvalid := h.next t.state.below ht.valid
    split
    · next fault hfault =>
      have hsame := hstays.next t.state.below (by simp [hfault])
      refine ⟨hvalid, ht.range, ?_, fun hnone => by simp at hnone, fun hnone => ?_⟩
      · rw [hsame]
        exact ht.inRange
      · rw [hsame]
        exact ht.candidate (.inr (hnone.resolve_left (by simp)))
    · next hfault =>
      rw [← ht.range hopen]
      refine guarded_settle h hstays space family hvalid _ fun hnone e he => ?_
      obtain ⟨d, hd⟩ := Option.ne_none_iff_exists'.mp hshown
      have hin := ht.inRange hnone hopen d hd
      rw [← ht.range hopen] at hin
      have hstart := by simpa using (Bool.and_eq_true_iff.mp hin).1
      exact KeyRange.not_beforeStart_of_lt _ hstart (h.top_lt t.state.below ht.valid hfault d hd e he)

theorem guarded_trail (moves : List Move) :
    ((below.skipScan space family).trail moves).Guarded below valid space := by
  suffices hrun : ∀ t : Trail (SkipState σ), t.Guarded below valid space →
      (moves.foldl (Trail.move (below.skipScan space family)) t).Guarded below valid space by
    exact hrun _ ⟨h.fresh, fun hopen => by simp [skipScan] at hopen, fun _ hopen => by simp [skipScan] at hopen,
      fun _ hopen => by simp [skipScan] at hopen, fun _ hopen => by simp [skipScan] at hopen⟩
  induction moves with
  | nil => exact fun t ht => ht
  | cons move moves ih =>
    intro t ht
    refine ih _ ?_
    cases move with
    | seek range filter => exact guarded_seek h hstays space family ht range filter
    | next => exact guarded_next h hstays space family ht

end Scan

/-! ## Scans over entries -/

/-- A skip scan over entries, some of whose calls on them fail. -/
def interruptedScan (entries : Entries) (plan : FaultPlan) (space : SearchSpace) (family : Bytes) :
    Source (SkipState (FaultyState ListState)) :=
  ((ofEntries entries).faulty plan).skipScan space family

/-- After any calls, whichever of them failed, a scan that has a top stands at one of its entries. If the last seek did
not fail, the entry is in its range. If the last call did not fail, the entry is a candidate, and not past the range.
If only moves on fail, the entry is always a candidate in the range. -/
theorem interruptedScan_top (entries : Entries) (plan : FaultPlan) (space : SearchSpace) (family : Bytes)
    (moves : List Move) {e : Entry}
    (he : e ∈ (interruptedScan entries plan space family).top
      ((interruptedScan entries plan space family).trail moves).state) :
    let left := (interruptedScan entries plan space family).trail moves
    e ∈ entries.toList ∧ (left.seekFault = none → left.range.contains e.1 = true) ∧
      (left.fault = none → e.1.qualifier ∈ space ∧ left.range.afterEnd e.1 = false) ∧
      (plan.firstSeek = none → e.1.qualifier ∈ space ∧ left.range.contains e.1 = true) := by
  have hguarded := guarded_trail ((ofEntries_ascends entries).faulty plan) (ofEntries_faulty_staysOnFault entries plan)
    space family moves
  change Trail.Guarded _ _ _ ((interruptedScan entries plan space family).trail moves) at hguarded
  generalize (interruptedScan entries plan space family).trail moves = left at he hguarded ⊢
  obtain ⟨hopen, hbelow⟩ :
      left.state.exhausted = false ∧ e ∈ ((ofEntries entries).faulty plan).top left.state.below := by
    simp only [interruptedScan, skipScan] at he
    split at he
    · simp at he
    · next hopen => exact ⟨by simpa using hopen, he⟩
  refine ⟨((ofEntries_ascends entries).faulty plan).top_mem _ hguarded.valid e hbelow,
    fun hnone => hguarded.inRange (.inl hnone) hopen e hbelow,
    fun hnone => ⟨hguarded.candidate (.inl hnone) hopen e hbelow, hguarded.inside hnone hopen e hbelow⟩,
    fun hplan => ?_⟩
  have hseeks := ofEntries_faulty_seeksSucceed entries hplan
  exact ⟨hguarded.candidate (.inr hseeks) hopen e hbelow, hguarded.inRange (.inr hseeks) hopen e hbelow⟩

/-- Two terms of one row. -/
def termIndex : Entries := .ofList [(⟨[114], [116], [97]⟩, []), (⟨[114], [116], [98]⟩, [])]

def secondTerm : SearchSpace := .ofList [[98]]

/-- The move on fails, and the scan stays at its candidate. -/
theorem interruptedScan_top_of_failed_next :
    let scan := interruptedScan termIndex ⟨.io, none, some 1⟩ secondTerm [116]
    (scan.trail [.seek .all .any, .next]).fault ≠ none ∧
      (⟨[114], [116], [98]⟩, []) ∈ scan.top (scan.trail [.seek .all .any, .next]).state ∧ [98] ∈ secondTerm := by
  have htop : ((⟨[114], [116], [98]⟩, []) : Entry) ∈
      (interruptedScan termIndex ⟨.io, none, some 1⟩ secondTerm [116]).top
        ((interruptedScan termIndex ⟨.io, none, some 1⟩ secondTerm [116]).trail [.seek .all .any, .next]).state := by
    decide
  exact ⟨by decide, htop, ((interruptedScan_top _ _ _ _ _ htop).2.2.2 rfl).1⟩

/-- After a jump that fails the top need not be a candidate, and after a seek that fails it need not be in the range. -/
theorem interruptedScan_strays :
    (¬∀ entries plan space family moves (e : Entry), e ∈ (interruptedScan entries plan space family).top
        ((interruptedScan entries plan space family).trail moves).state → e.1.qualifier ∈ space) ∧
    ¬∀ entries plan space family moves (e : Entry), e ∈ (interruptedScan entries plan space family).top
        ((interruptedScan entries plan space family).trail moves).state →
      ((interruptedScan entries plan space family).trail moves).range.contains e.1 = true := by
  refine ⟨fun hall => ?_, fun hall => ?_⟩
  · -- the jump from the first term to the second is the second seek below
    have hmem := hall termIndex ⟨.io, some 2, none⟩ secondTerm [116] [.seek .all .any] (⟨[114], [116], [97]⟩, [])
      (by decide)
    exact absurd hmem (by decide)
  · have hin := hall termIndex ⟨.io, some 3, none⟩ secondTerm [116]
      [.seek .all .any, .seek (.halfOpen ⟨[115], [], []⟩ ⟨[116], [], []⟩) .any] (⟨[114], [116], [98]⟩, []) (by decide)
    exact absurd hin (by decide)

end ProximitySearch.Source
