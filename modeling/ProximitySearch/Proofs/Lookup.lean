import ProximitySearch.Cursor.Journal
import ProximitySearch.NegatedLookup
import ProximitySearch.Proofs.Occurrence

/-!
# Lookups over any source

What a lookup finds does not depend on a journal: it is the same over a source and over one that keeps more
in its states (`Source.Projects`, `document_projects`).

A property of the state that every single lookup keeps holds at the end of all of them, whether they fail or
not (`fetchAll_invariant`), so the owners of what was found can be read (`readable_document`). They fail only where a
single one does (`fetchAll_error`). A lookup that does not fail is remembered as a pair fetched or missed, and none is
forgotten (`caches_of_fetch`, `grows_of_fetch`).
-/

namespace ProximitySearch

open Proximity

/-! ## Forgetting part of a state -/

def Reply.map {σ τ : Type} (forget : σ → τ) (reply : Reply σ) : Reply τ :=
  ⟨forget reply.state, reply.fault⟩

namespace Source

variable {σ τ : Type}

/-- A walk over `a` is one over `b`, once part of each state is forgotten. -/
structure Projects (a : Source σ) (b : Source τ) (forget : σ → τ) : Prop where
  fresh : b.fresh = forget a.fresh
  top : ∀ s, b.top (forget s) = a.top s
  seek : ∀ range filter s, b.seek range filter (forget s) = (a.seek range filter s).map forget
  next : ∀ s, b.next (forget s) = (a.next s).map forget
  size : b.size = a.size

theorem journaled_projects (src : Source σ) : src.journaled.Projects src JournalState.below :=
  ⟨rfl, fun _ => rfl, fun _ _ _ => rfl, fun _ => rfl, rfl⟩

theorem Projects.bounded {a : Source σ} {b : Source τ} {forget : σ → τ} (h : a.Projects b forget) :
    a.bounded.Projects b.bounded fun s => ⟨forget s.below, s.range⟩ := by
  have htop (s : BoundedState σ) : b.boundedTop ⟨forget s.below, s.range⟩ = a.boundedTop s := by
    simp only [boundedTop, h.top]
  refine ⟨?_, htop, fun range filter s => ?_, fun s => ?_, h.size⟩
  · simp only [Source.bounded, h.fresh]
  · simp only [Source.bounded, h.seek, Reply.map]
  · simp only [Source.bounded, htop, h.next]
    split <;> rfl

end Source

/-- The state of lookups with part of the walk's state forgotten. -/
def LookupState.map {σ τ : Type} (forget : σ → τ) (s : LookupState σ) : LookupState τ :=
  ⟨forget s.walk, s.found, s.fetched, s.missed⟩

namespace NegatedLookup

section Projection

variable {σ τ : Type} {a : Source σ} {b : Source τ} {forget : σ → τ}

theorem gather_projects (h : a.Projects b forget) (row : Bytes) (id : DocumentId) (field value : String)
    (rounds : Nat) (s : σ) (found : Document) (count : Nat) :
    gather b row id field value rounds (forget s) found count =
      (gather a row id field value rounds s found count).map forget fun outcome => outcome := by
  induction rounds generalizing s found count with
  | zero => rfl
  | succ rounds ih =>
    simp only [gather, h.top]
    split
    · rfl
    · split
      · rfl
      · simp only [h.next, Reply.map]
        split
        · rfl
        · exact ih _ _ _

theorem fetch_projects (h : a.Projects b forget) (row : Bytes) (id : DocumentId) (field value : String)
    (s : LookupState σ) :
    fetch b row id field value (s.map forget) =
      (fetch a row id field value s).map (LookupState.map forget) fun outcome => outcome := by
  simp only [fetch, LookupState.map, h.seek, h.size, Reply.map]
  split
  · rfl
  · rw [gather_projects h]
    obtain ⟨walk, outcome⟩ := gather a row id field value (a.size + 1)
      (a.seek (lookupRange row id field value) (.only (Utf8.encode (fieldIndexFamily field))) s.walk).state s.found 0
    cases outcome with
    | error e => rfl
    | ok result =>
      dsimp only [Prod.map]
      split <;> rfl

theorem fetchValues_projects (h : a.Projects b forget) (row : Bytes) (id : DocumentId) (field : String)
    (values : List String) (s : LookupState σ) :
    fetchValues b row id field values (s.map forget) =
      (fetchValues a row id field values s).map (LookupState.map forget) fun outcome => outcome := by
  induction values generalizing s with
  | nil => rfl
  | cons value others ih =>
    unfold fetchValues
    rw [fetch_projects h, show (s.map forget).fetched = s.fetched from rfl, ih]
    split
    · rfl
    · obtain ⟨s', outcome⟩ := fetch a row id field value s
      match outcome with
      | .error e => rfl
      | .ok false => rfl
      | .ok true => exact ih s'

theorem fetchFields_projects (h : a.Projects b forget) (row : Bytes) (id : DocumentId) (values fields : List String)
    (s : LookupState σ) :
    fetchFields b row id values fields (s.map forget) =
      (fetchFields a row id values fields s).map (LookupState.map forget) fun outcome => outcome := by
  induction fields generalizing s with
  | nil => rfl
  | cons field others ih =>
    unfold fetchFields
    rw [fetchValues_projects h, show (s.map forget).missed = s.missed from rfl, ih]
    split
    · rfl
    · obtain ⟨s', outcome⟩ := fetchValues a row id field values s
      cases outcome with
      | error e => rfl
      | ok => exact ih s'

theorem fetchAll_projects (h : a.Projects b forget) (row : Bytes) (id : DocumentId) (descriptors : List Descriptor)
    (s : LookupState σ) :
    fetchAll b row id descriptors (s.map forget) =
      (fetchAll a row id descriptors s).map (LookupState.map forget) fun outcome => outcome := by
  induction descriptors generalizing s with
  | nil => rfl
  | cons d others ih =>
    unfold fetchAll
    rw [fetchFields_projects h]
    obtain ⟨s', outcome⟩ := fetchFields a row id d.values.toList d.fields.toList s
    cases outcome with
    | error e => rfl
    | ok => exact ih s'

/-- A lookup finds the same, or fails alike, over a source that keeps more in its states. -/
theorem document_projects (h : a.Projects b forget) (row : Bytes) (id : DocumentId) (negated : List Descriptor) :
    (document b row id negated).2 = (document a row id negated).2 := by
  have hfresh : (⟨b.bounded.fresh, ∅, [], []⟩ : LookupState _) =
      LookupState.map (fun s => ⟨forget s.below, s.range⟩) ⟨a.bounded.fresh, ∅, [], []⟩ := by
    rw [LookupState.map, h.bounded.fresh]
  simp only [document, hfresh, fetchAll_projects h.bounded]
  rfl

end Projection

/-! ## Invariants of lookups -/

section Invariant

variable {σ : Type} {index : Source σ} {row : Bytes} {id : DocumentId}

theorem fetchValues_invariant {P : LookupState σ → Prop} {field : String} {values : List String}
    (hfetch : ∀ value ∈ values, ∀ s, P s → P (fetch index row id field value s).1) {s : LookupState σ} (h : P s) :
    P (fetchValues index row id field values s).1 := by
  induction values generalizing s with
  | nil => exact h
  | cons value others ih =>
    have hothers {s : LookupState σ} (hs : P s) := ih (fun v hv => hfetch v (List.mem_cons_of_mem _ hv)) hs
    have hone := hfetch value (by simp) s h
    unfold fetchValues
    split
    · exact hothers h
    · split
      · next heq => rwa [heq] at hone
      · next heq => rwa [heq] at hone
      · next heq => rw [heq] at hone; exact hothers hone

theorem fetchFields_invariant {P : LookupState σ → Prop} {values fields : List String}
    (hfetch : ∀ field ∈ fields, ∀ value ∈ values, ∀ s, P s → P (fetch index row id field value s).1)
    {s : LookupState σ} (h : P s) : P (fetchFields index row id values fields s).1 := by
  induction fields generalizing s with
  | nil => exact h
  | cons field others ih =>
    have hothers {s : LookupState σ} (hs : P s) := ih (fun f hf => hfetch f (List.mem_cons_of_mem _ hf)) hs
    have hone := fetchValues_invariant (hfetch field (by simp)) h
    unfold fetchFields
    split
    · exact hothers h
    · split
      · next heq => rwa [heq] at hone
      · next heq => rw [heq] at hone; exact hothers hone

/-- What each lookup of a required value keeps, whatever its outcome, all lookups keep. -/
theorem fetchAll_invariant {P : LookupState σ → Prop} {descriptors : List Descriptor}
    (hfetch : ∀ d ∈ descriptors, ∀ field value, d.Requires field value → ∀ s, P s →
      P (fetch index row id field value s).1) {s : LookupState σ} (h : P s) :
    P (fetchAll index row id descriptors s).1 := by
  induction descriptors generalizing s with
  | nil => exact h
  | cons d others ih =>
    have hothers {s : LookupState σ} (hs : P s) := ih (fun d' hd' => hfetch d' (List.mem_cons_of_mem _ hd')) hs
    have hone : P (fetchFields index row id d.values.toList d.fields.toList s).1 :=
      fetchFields_invariant (fun field hf value hv => hfetch d (by simp) field value ⟨hf, hv⟩) h
    unfold fetchAll
    split
    · next heq => rwa [heq] at hone
    · next heq => rw [heq] at hone; exact hothers hone

theorem fetchValues_error {field : String} {values : List String} {s s' : LookupState σ} {error : SearchError}
    (hrun : fetchValues index row id field values s = (s', .error error)) :
    ∃ value ∈ values, ∃ s₁ s₂, fetch index row id field value s₁ = (s₂, .error error) := by
  induction values generalizing s with
  | nil => simp [fetchValues] at hrun
  | cons value others ih =>
    have hothers {s : LookupState σ} (h : fetchValues index row id field others s = (s', .error error)) :
        ∃ v ∈ value :: others, ∃ s₁ s₂, fetch index row id field v s₁ = (s₂, .error error) :=
      (ih h).imp fun v hv => ⟨List.mem_cons_of_mem _ hv.1, hv.2⟩
    unfold fetchValues at hrun
    split at hrun
    · exact hothers hrun
    · split at hrun
      · next s₁ fault hfetch =>
        obtain ⟨-, hfault⟩ := Prod.mk.inj hrun
        obtain rfl := Except.error.inj hfault
        exact ⟨value, List.mem_cons_self, s, s₁, hfetch⟩
      · simp at hrun
      · exact hothers hrun

theorem fetchFields_error {values fields : List String} {s s' : LookupState σ} {error : SearchError}
    (hrun : fetchFields index row id values fields s = (s', .error error)) :
    ∃ field ∈ fields, ∃ value ∈ values, ∃ s₁ s₂, fetch index row id field value s₁ = (s₂, .error error) := by
  induction fields generalizing s with
  | nil => simp [fetchFields] at hrun
  | cons field others ih =>
    have hothers {s : LookupState σ} (h : fetchFields index row id values others s = (s', .error error)) :
        ∃ f ∈ field :: others, ∃ v ∈ values, ∃ s₁ s₂, fetch index row id f v s₁ = (s₂, .error error) :=
      (ih h).imp fun f hf => ⟨List.mem_cons_of_mem _ hf.1, hf.2⟩
    unfold fetchFields at hrun
    split at hrun
    · exact hothers hrun
    · split at hrun
      · next hvalues =>
        obtain ⟨-, hfault⟩ := Prod.mk.inj hrun
        obtain rfl := Except.error.inj hfault
        exact ⟨field, List.mem_cons_self, fetchValues_error hvalues⟩
      · exact hothers hrun

theorem fetchAll_error {descriptors : List Descriptor} {s s' : LookupState σ} {error : SearchError}
    (hrun : fetchAll index row id descriptors s = (s', .error error)) :
    ∃ d ∈ descriptors, ∃ field value, d.Requires field value ∧
      ∃ s₁ s₂, fetch index row id field value s₁ = (s₂, .error error) := by
  induction descriptors generalizing s with
  | nil => simp [fetchAll] at hrun
  | cons d others ih =>
    unfold fetchAll at hrun
    split at hrun
    · next hfields =>
      obtain ⟨-, hfault⟩ := Prod.mk.inj hrun
      obtain rfl := Except.error.inj hfault
      obtain ⟨field, hf, value, hv, hfails⟩ := fetchFields_error hfields
      exact ⟨d, List.mem_cons_self, field, value, ⟨hf, hv⟩, hfails⟩
    · exact (ih hrun).imp fun d' hd' => ⟨List.mem_cons_of_mem _ hd'.1, hd'.2⟩

theorem gather_invariant {P : Document → Prop} {field value : String}
    (hput : ∀ owner found, NulFree owner.datatype → isSameOrChildOwner owner.owner id.owner = true → P found →
      P (found.put field (attributeOf row owner field value)))
    {rounds : Nat} {s s' : σ} {found found' : Document} {count count' : Nat} (h : P found)
    (hgather : gather index row id field value rounds s found count = (s', .ok (found', count'))) : P found' := by
  induction rounds generalizing s found count with
  | zero =>
    obtain ⟨-, hok⟩ := Prod.mk.inj hgather
    obtain ⟨rfl, -⟩ := Prod.mk.inj (Except.ok.inj hok)
    exact h
  | succ rounds ih =>
    unfold gather at hgather
    split at hgather
    · obtain ⟨-, hok⟩ := Prod.mk.inj hgather
      obtain ⟨rfl, -⟩ := Prod.mk.inj (Except.ok.inj hok)
      exact h
    · split at hgather
      · simp at hgather
      · next owner hparse =>
        dsimp only at hgather
        split at hgather
        · simp at hgather
        · obtain ⟨_, _, hfree, _⟩ := parseFieldIndexQualifier_eq_ok_iff.mp hparse
          refine ih ?_ hgather
          split
          · next hown => exact hput owner found hfree hown h
          · exact h

theorem fetch_found_invariant {P : Document → Prop} {field value : String}
    (hput : ∀ owner found, NulFree owner.datatype → isSameOrChildOwner owner.owner id.owner = true → P found →
      P (found.put field (attributeOf row owner field value)))
    {s : LookupState σ} (h : P s.found) : P (fetch index row id field value s).1.found := by
  unfold fetch
  dsimp only
  split
  · exact h
  · split
    · exact h
    · next hgather =>
      have := gather_invariant hput h hgather
      split <;> exact this

theorem gather_walk_invariant {P : σ → Prop} {field value : String} (hnext : ∀ s, P s → P (index.next s).state)
    {rounds : Nat} {s s' : σ} {found : Document} {count : Nat} {outcome : Except SearchError (Document × Nat)} (h : P s)
    (hgather : gather index row id field value rounds s found count = (s', outcome)) : P s' := by
  induction rounds generalizing s found count with
  | zero =>
    obtain ⟨rfl, -⟩ := Prod.mk.inj hgather
    exact h
  | succ rounds ih =>
    unfold gather at hgather
    split at hgather
    · obtain ⟨rfl, -⟩ := Prod.mk.inj hgather
      exact h
    · split at hgather
      · obtain ⟨rfl, -⟩ := Prod.mk.inj hgather
        exact h
      · dsimp only at hgather
        split at hgather
        · obtain ⟨rfl, -⟩ := Prod.mk.inj hgather
          exact hnext s h
        · exact ih (hnext s h) hgather

theorem fetch_walk_invariant {P : σ → Prop} {field value : String} (hnext : ∀ s, P s → P (index.next s).state)
    {s : LookupState σ} (hsought : P (index.seek (lookupRange row id field value)
      (.only (Utf8.encode (fieldIndexFamily field))) s.walk).state) : P (fetch index row id field value s).1.walk := by
  unfold fetch
  dsimp only
  split
  · exact hsought
  · split
    · next hgather => exact gather_walk_invariant hnext hsought hgather
    · next hgather =>
      have hwalk := gather_walk_invariant hnext hsought hgather
      split <;> exact hwalk

end Invariant

/-! ## What is known of earlier lookups -/

section Caches

variable {σ : Type} {index : Source σ} {row : Bytes} {id : DocumentId} {field value : String}

/-- No lookup is forgotten. -/
structure Grows (s s' : LookupState σ) : Prop where
  fetched : s.fetched ⊆ s'.fetched
  missed : s.missed ⊆ s'.missed

theorem Grows.refl (s : LookupState σ) : Grows s s :=
  ⟨List.Subset.refl _, List.Subset.refl _⟩

theorem Grows.trans {s s' s'' : LookupState σ} (h : Grows s s') (h' : Grows s' s'') : Grows s s'' :=
  ⟨List.Subset.trans h.fetched h'.fetched, List.Subset.trans h.missed h'.missed⟩

theorem caches_of_fetch {s s' : LookupState σ} {isFound : Bool}
    (hfetch : fetch index row id field value s = (s', .ok isFound)) :
    s'.fetched = (if isFound then (field, value) :: s.fetched else s.fetched) ∧
      s'.missed = if isFound then s.missed else (field, value) :: s.missed := by
  unfold fetch at hfetch
  dsimp only at hfetch
  split at hfetch
  · simp at hfetch
  · split at hfetch
    · simp at hfetch
    · split at hfetch
      · obtain ⟨rfl, hok⟩ := Prod.mk.inj hfetch
        obtain rfl := Except.ok.inj hok
        exact ⟨rfl, rfl⟩
      · obtain ⟨rfl, hok⟩ := Prod.mk.inj hfetch
        obtain rfl := Except.ok.inj hok
        exact ⟨rfl, rfl⟩

theorem grows_of_fetch {s s' : LookupState σ} {isFound : Bool}
    (hfetch : fetch index row id field value s = (s', .ok isFound)) : Grows s s' := by
  obtain ⟨hfetched, hmissed⟩ := caches_of_fetch hfetch
  constructor
  · rw [hfetched]
    split
    · exact List.subset_cons_self _ _
    · exact List.Subset.refl _
  · rw [hmissed]
    split
    · exact List.Subset.refl _
    · exact List.subset_cons_self _ _

end Caches

/-! ## What was found can be read -/

theorem documentId_attributeOf {owner : DocumentId} (h : NulFree owner.datatype) (row : Bytes)
    (field value : String) :
    (attributeOf row owner field value).documentId = .ok owner :=
  DocumentId.parse_eq_ok_iff.mpr ⟨h, rfl⟩

theorem document_eq_ok_iff {σ : Type} {index : Source σ} {row : Bytes} {id : DocumentId} {negated : List Descriptor}
    {found : Document} : (document index row id negated).2 = .ok found ↔
      ∃ s, fetchAll index.bounded row id negated ⟨index.bounded.fresh, ∅, [], []⟩ = (s, .ok ()) ∧
        s.found = found := by
  unfold document
  obtain ⟨s, outcome⟩ := fetchAll index.bounded row id negated ⟨index.bounded.fresh, ∅, [], []⟩
  cases outcome with
  | error e => simp [Except.map]
  | ok => simp [Except.map]

theorem readable_document {σ : Type} {index : Source σ} {row : Bytes} {id : DocumentId} {negated : List Descriptor}
    {found : Document} (h : (document index row id negated).2 = .ok found) : found.Readable := by
  obtain ⟨s, hfetch, rfl⟩ := document_eq_ok_iff.mp h
  have hinv : (fetchAll index.bounded row id negated ⟨index.bounded.fresh, ∅, [], []⟩).1.found.Readable := by
    refine fetchAll_invariant (P := fun s => s.found.Readable) ?_ Document.readable_empty
    intro d hd field value hreq s hs
    refine fetch_found_invariant (P := Document.Readable) (fun owner found hfree _ hfound => ?_) hs
    exact hfound.put ⟨owner, documentId_attributeOf hfree row field value⟩
  rwa [hfetch] at hinv

end NegatedLookup

end ProximitySearch
