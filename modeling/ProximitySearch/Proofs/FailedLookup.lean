import ProximitySearch.Proofs.Evaluation
import ProximitySearch.Proofs.FailingSources

/-!
# Lookups that fail

A lookup runs into a failure if a call on its walk fails, or leads to an entry whose qualifier names no
document. `Source.watched` is the same walk with a note of that, which does not come from the lookup's
outcome. The lookup is an error just if the note is left (`document_error_iff`), and otherwise finds what it
finds in the same source without failures (`document_follows`).

So an evaluation either has the outcome it has without a source, or the one it has with a source that never
fails, and its only errors are keys that it cannot read (`outcome_evaluate_of_failures`).
-/

namespace ProximitySearch

open Proximity Std

/-! ## Watched walks -/

/-- State of a watched walk, with the note whether it ran into a failure. -/
structure WatchedState (σ : Type) where
  below : σ
  failed : Bool

namespace Source

variable {σ : Type}

/-- Whether a walk stands at an entry whose qualifier names no document. -/
def isAtUnreadable (src : Source σ) (s : σ) : Bool :=
  (src.top s).any fun e => !(parseFieldIndexQualifier e.1.qualifier).isOk

/-- The reply to a call with the note made after it. -/
def note (below : Source σ) (failed : Bool) (reply : Reply σ) : Reply (WatchedState σ) :=
  ⟨⟨reply.state, failed || reply.fault.isSome || below.isAtUnreadable reply.state⟩, reply.fault⟩

/-- The same walk with a note whether a call on it failed, or led to an entry whose qualifier names no document. -/
def watched (below : Source σ) : Source (WatchedState σ) where
  fresh := ⟨below.fresh, false⟩
  top s := below.top s.below
  seek range filter s := below.note s.failed (below.seek range filter s.below)
  next s := below.note s.failed (below.next s.below)
  size := below.size

theorem watched_projects (below : Source σ) : below.watched.Projects below WatchedState.below :=
  ⟨rfl, fun _ => rfl, fun _ _ _ => rfl, fun _ => rfl, rfl⟩

/-! ### Entries left -/

/-- Number of entries from a key on. -/
def entriesFrom (entries : Entries) (key : Key) : Nat :=
  (entries.toList.filter fun e => (compare key e.1).isLE).length

theorem entriesFrom_le (entries : Entries) (key : Key) : entriesFrom entries key ≤ entries.size :=
  List.length_filter_le _ _

theorem entriesFrom_pos {entries : Entries} {e : Entry} (h : e ∈ entries.toList) : 0 < entriesFrom entries e.1 :=
  List.length_pos_of_mem (List.mem_filter.mpr ⟨h, by simp⟩)

theorem entriesFrom_lt {entries : Entries} {e : Entry} (h : e ∈ entries.toList) {key : Key}
    (hlt : compare e.1 key = .lt) : entriesFrom entries key < entriesFrom entries e.1 := by
  have hsub : (entries.toList.filter fun d => (compare key d.1).isLE) =
      (entries.toList.filter fun d => (compare e.1 d.1).isLE).filter fun d => (compare key d.1).isLE := by
    rw [List.filter_filter]
    refine List.filter_congr fun d _ => ?_
    cases hd : (compare key d.1).isLE with
    | false => rfl
    | true =>
      have hle : compare e.1 d.1 = .lt := TransCmp.lt_of_lt_of_isLE hlt hd
      simp [hle]
  rw [entriesFrom, hsub, entriesFrom]
  apply List.length_filter_lt_length_iff_exists.mpr
  refine ⟨e, List.mem_filter.mpr ⟨h, by simp⟩, ?_⟩
  have hgt : compare key e.1 = .gt := OrientedCmp.gt_of_lt hlt
  simp [hgt]

theorem Ascends.journaled {src : Source σ} {entries : Entries} {valid : σ → Prop} (h : src.Ascends entries valid) :
    src.journaled.Ascends entries fun s => valid s.below :=
  ⟨h.fresh, fun range filter s => h.seek range filter s.below, fun s => h.next s.below, fun s => h.top_mem s.below,
    fun range filter s => h.start_le range filter s.below, fun s => h.top_lt s.below, h.size_le⟩

end Source

namespace NegatedLookup

/-! ## Failures noted -/

section Noted

variable {σ : Type} {src : Source σ} {entries : Entries} {valid : σ → Prop}

/-- A watched walk is left in a valid state, with a note of failure just if an outcome is an error. -/
def Noted {α : Type} (valid : σ → Prop) (walk : WatchedState σ) (outcome : Except SearchError α) : Prop :=
  valid walk.below ∧ walk.failed = !outcome.isOk

section Walk

variable (h : src.Ascends entries valid) (row : Bytes) (id : DocumentId)
include h

theorem gather_noted (field value : String) (rounds : Nat) {s : WatchedState σ} (hs : valid s.below)
    (hnote : s.failed = src.isAtUnreadable s.below)
    (hrounds : ∀ e ∈ src.top s.below, Source.entriesFrom entries e.1 ≤ rounds) (found : Document) (count : Nat) :
    Noted valid (gather src.watched row id field value rounds s found count).1
      (gather src.watched row id field value rounds s found count).2 := by
  induction rounds generalizing s found count with
  | zero =>
    -- an entry on show would be one of those left
    have hnone : src.top s.below = none := by
      by_contra hsome
      obtain ⟨e, he⟩ := Option.ne_none_iff_exists'.mp hsome
      have hpos := Source.entriesFrom_pos (h.top_mem s.below hs e he)
      have hle := hrounds e he
      omega
    exact ⟨hs, by simp [gather, hnote, Source.isAtUnreadable, hnone, Except.isOk, Except.toBool]⟩
  | succ rounds ih =>
    have hwatched : src.watched.top s = src.top s.below := rfl
    unfold gather
    rw [hwatched]
    cases htop : src.top s.below with
    | none => exact ⟨hs, by simp [hnote, Source.isAtUnreadable, htop, Except.isOk, Except.toBool]⟩
    | some e =>
      dsimp only
      cases hparse : parseFieldIndexQualifier e.1.qualifier with
      | error fault =>
        exact ⟨hs, by simp [hnote, Source.isAtUnreadable, htop, hparse, Except.isOk, Except.toBool]⟩
      | ok owner =>
        have hclear : s.failed = false := by
          simp [hnote, Source.isAtUnreadable, htop, hparse, Except.isOk, Except.toBool]
        have hmoved := h.next s.below hs
        dsimp only
        cases hfault : (src.watched.next s).fault with
        | some fault =>
          have hfault : (src.next s.below).fault = some fault := hfault
          exact ⟨hmoved, by simp [Source.watched, Source.note, hfault, Except.isOk, Except.toBool]⟩
        | none =>
          have hfault : (src.next s.below).fault = none := hfault
          refine ih hmoved ?_ (fun d hd => ?_) _ _
          · simp [Source.watched, Source.note, hclear, hfault]
          · have hlt := Source.entriesFrom_lt (h.top_mem s.below hs e htop) (h.top_lt s.below hs hfault e htop d hd)
            have hle := hrounds e htop
            omega

variable {s : LookupState (WatchedState σ)} (hs : valid s.walk.below) (hclear : s.walk.failed = false)
include hs hclear

theorem fetch_noted (field value : String) : Noted valid (fetch src.watched row id field value s).1.walk
    (fetch src.watched row id field value s).2 := by
  unfold fetch
  have hvalid := h.seek (lookupRange row id field value) (.only (Utf8.encode (fieldIndexFamily field))) s.walk.below hs
  dsimp only
  split
  · next fault hfault =>
    have hfault : (src.seek (lookupRange row id field value) (.only (Utf8.encode (fieldIndexFamily field)))
      s.walk.below).fault = some fault := hfault
    exact ⟨hvalid, by simp [Source.watched, Source.note, hfault, Except.isOk, Except.toBool]⟩
  · next hfault =>
    have hfault : (src.seek (lookupRange row id field value) (.only (Utf8.encode (fieldIndexFamily field)))
      s.walk.below).fault = none := hfault
    have hnoted := gather_noted h row id field value (src.size + 1)
      (s := (src.watched.seek (lookupRange row id field value) (.only (Utf8.encode (fieldIndexFamily field)))
        s.walk).state) hvalid (by simp [Source.watched, Source.note, hclear, hfault])
      (fun e _ => Nat.le_succ_of_le (Nat.le_trans (Source.entriesFrom_le entries e.1) h.size_le)) s.found 0
    split
    · next heq =>
      rw [show src.watched.size = src.size from rfl] at heq
      rwa [heq] at hnoted
    · next heq =>
      rw [show src.watched.size = src.size from rfl] at heq
      rw [heq] at hnoted
      split
      · exact hnoted
      · exact hnoted

theorem fetchValues_noted (field : String) (values : List String) :
    Noted valid (fetchValues src.watched row id field values s).1.walk
      (fetchValues src.watched row id field values s).2 := by
  induction values generalizing s with
  | nil => exact ⟨hs, hclear⟩
  | cons value others ih =>
    unfold fetchValues
    have hone := fetch_noted h row id hs hclear field value
    split
    · exact ih hs hclear
    · split
      · next heq => rwa [heq] at hone
      · next heq => rwa [heq] at hone
      · next heq =>
        rw [heq] at hone
        exact ih hone.1 hone.2

theorem fetchFields_noted (values fields : List String) :
    Noted valid (fetchFields src.watched row id values fields s).1.walk
      (fetchFields src.watched row id values fields s).2 := by
  induction fields generalizing s with
  | nil => exact ⟨hs, hclear⟩
  | cons field others ih =>
    unfold fetchFields
    have hone := fetchValues_noted h row id hs hclear field values
    split
    · exact ih hs hclear
    · split
      · next heq => rwa [heq] at hone
      · next heq =>
        rw [heq] at hone
        exact ih hone.1 hone.2

theorem fetchAll_noted (descriptors : List Descriptor) :
    Noted valid (fetchAll src.watched row id descriptors s).1.walk
      (fetchAll src.watched row id descriptors s).2 := by
  induction descriptors generalizing s with
  | nil => exact ⟨hs, hclear⟩
  | cons d others ih =>
    unfold fetchAll
    have hone := fetchFields_noted h row id hs hclear d.values.toList d.fields.toList
    split
    · next heq => rwa [heq] at hone
    · next heq =>
      rw [heq] at hone
      exact ih hone.1 hone.2

end Walk

/-- A lookup leads to a failure of a call, or to an entry of which it cannot read the qualifier. -/
def RunsIntoFailure (index : Source σ) (row : Bytes) (id : DocumentId) (negated : List Descriptor) : Prop :=
  (fetchAll index.bounded.watched row id negated ⟨index.bounded.watched.fresh, ∅, [], []⟩).1.walk.failed = true

theorem document_error_iff (h : src.Ascends entries valid) (row : Bytes) (id : DocumentId) (negated : List Descriptor) :
    (∃ error, (document src row id negated).2 = .error error) ↔ RunsIntoFailure src row id negated := by
  have hfresh : (⟨src.bounded.fresh, ∅, [], []⟩ : LookupState _) =
      LookupState.map WatchedState.below ⟨src.bounded.watched.fresh, ∅, [], []⟩ := rfl
  have hnoted := (fetchAll_noted h.bounded row id
    (s := ⟨src.bounded.watched.fresh, ∅, [], []⟩) h.fresh rfl negated).2
  simp only [document, hfresh, fetchAll_projects src.bounded.watched_projects, RunsIntoFailure]
  generalize fetchAll src.bounded.watched row id negated ⟨src.bounded.watched.fresh, ∅, [], []⟩ = run at hnoted ⊢
  obtain ⟨s, outcome⟩ := run
  rw [hnoted]
  cases outcome with
  | ok => simp [Prod.map, Except.map, Except.isOk, Except.toBool]
  | error error => simp [Prod.map, Except.map, Except.isOk, Except.toBool]

end Noted

/-! ## Lookups without a failure -/

section Following

variable {σ τ : Type} {a : Source σ} {b : Source τ} {forget : σ → τ} (h : a.FollowsUntilFault b forget) {row : Bytes}
  {id : DocumentId}
include h

theorem gather_follows {field value : String} {rounds : Nat} {s s' : σ} {found found' : Document} {count count' : Nat}
    (hok : gather a row id field value rounds s found count = (s', .ok (found', count'))) :
    gather b row id field value rounds (forget s) found count = (forget s', .ok (found', count')) := by
  induction rounds generalizing s found count with
  | zero =>
    obtain ⟨rfl, hsame⟩ := Prod.mk.inj hok
    exact congrArg (Prod.mk _) hsame
  | succ rounds ih =>
    unfold gather at hok ⊢
    rw [h.top]
    split at hok
    · obtain ⟨rfl, hsame⟩ := Prod.mk.inj hok
      exact congrArg (Prod.mk _) hsame
    · split at hok
      · simp at hok
      · dsimp only at hok ⊢
        split at hok
        · simp at hok
        · next hfault =>
          rw [h.next s hfault]
          simp only [Reply.map, hfault]
          exact ih hok

theorem fetch_follows {field value : String} {s s' : LookupState σ} {known : Bool}
    (hok : fetch a row id field value s = (s', .ok known)) :
    fetch b row id field value (s.map forget) = (s'.map forget, .ok known) := by
  unfold fetch at hok ⊢
  dsimp only at hok ⊢
  split at hok
  · simp at hok
  · next hfault =>
    rw [show (s.map forget).walk = forget s.walk from rfl, h.seek _ _ _ hfault, h.size]
    simp only [Reply.map, hfault]
    split at hok
    · simp at hok
    · next hgather =>
      rw [show (s.map forget).found = s.found from rfl, gather_follows h hgather]
      split at hok
      · next hzero =>
        obtain ⟨rfl, hsame⟩ := Prod.mk.inj hok
        simp only [hzero, if_true]
        exact congrArg (Prod.mk _) hsame
      · next hzero =>
        obtain ⟨rfl, hsame⟩ := Prod.mk.inj hok
        simp only [hzero, if_false]
        exact congrArg (Prod.mk _) hsame

theorem fetchValues_follows {field : String} {values : List String} {s s' : LookupState σ}
    (hok : fetchValues a row id field values s = (s', .ok ())) :
    fetchValues b row id field values (s.map forget) = (s'.map forget, .ok ()) := by
  induction values generalizing s with
  | nil =>
    obtain ⟨rfl, -⟩ := Prod.mk.inj hok
    rfl
  | cons value others ih =>
    unfold fetchValues at hok ⊢
    rw [show (s.map forget).fetched = s.fetched from rfl]
    split at hok
    · next hknown =>
      rw [if_pos hknown]
      exact ih hok
    · next hknown =>
      rw [if_neg hknown]
      split at hok
      · simp at hok
      · next hfetch =>
        obtain ⟨rfl, -⟩ := Prod.mk.inj hok
        rw [fetch_follows h hfetch]
      · next hfetch =>
        rw [fetch_follows h hfetch]
        exact ih hok

theorem fetchFields_follows {values fields : List String} {s s' : LookupState σ}
    (hok : fetchFields a row id values fields s = (s', .ok ())) :
    fetchFields b row id values fields (s.map forget) = (s'.map forget, .ok ()) := by
  induction fields generalizing s with
  | nil =>
    obtain ⟨rfl, -⟩ := Prod.mk.inj hok
    rfl
  | cons field others ih =>
    unfold fetchFields at hok ⊢
    rw [show (s.map forget).missed = s.missed from rfl]
    split at hok
    · next hmissed =>
      rw [if_pos hmissed]
      exact ih hok
    · next hmissed =>
      rw [if_neg hmissed]
      split at hok
      · simp at hok
      · next hfetch =>
        rw [fetchValues_follows h hfetch]
        exact ih hok

theorem fetchAll_follows {descriptors : List Descriptor} {s s' : LookupState σ}
    (hok : fetchAll a row id descriptors s = (s', .ok ())) :
    fetchAll b row id descriptors (s.map forget) = (s'.map forget, .ok ()) := by
  induction descriptors generalizing s with
  | nil =>
    obtain ⟨rfl, -⟩ := Prod.mk.inj hok
    rfl
  | cons d others ih =>
    unfold fetchAll at hok ⊢
    split at hok
    · simp at hok
    · next hfetch =>
      rw [fetchFields_follows h hfetch]
      exact ih hok

/-- What a lookup finds without running into a failure is in the source without failures, and no more is. -/
theorem document_follows {negated : List Descriptor} {found : Document}
    (hok : (document a row id negated).2 = .ok found) : (document b row id negated).2 = .ok found := by
  obtain ⟨s, hfetch, rfl⟩ := document_eq_ok_iff.mp hok
  apply document_eq_ok_iff.mpr
  refine ⟨s.map fun s => ⟨forget s.below, s.range⟩, ?_, rfl⟩
  rw [h.bounded.fresh]
  exact fetchAll_follows h.bounded hfetch

end Following

end NegatedLookup

namespace Engine

/-! ## Evaluations -/

/-- An evaluation looks its negated functions up, and the lookup runs into a failure. -/
def LookupFails (e : Engine) (key : Key) : Prop :=
  e.space.hasNegated = true ∧ e.config.aggregation = .topLevelDocument ∧ ∃ stack, e.source = some stack ∧
    ∃ id, key.documentId = .ok id ∧
      NegatedLookup.RunsIntoFailure stack.source.journaled key.row id e.space.negated

theorem pseudoDocument_of_failure {e : Engine} {key : Key} {id : DocumentId} {stack : Stack}
    (hsource : e.source = some stack)
    (hfails : NegatedLookup.RunsIntoFailure stack.source.journaled key.row id e.space.negated) :
    e.pseudoDocument key id = ∅ := by
  obtain ⟨valid, hascends⟩ := stack.exists_ascends
  obtain ⟨error, herror⟩ := (NegatedLookup.document_error_iff hascends.journaled _ _ _).mpr hfails
  have hsame := NegatedLookup.document_projects (Source.journaled_projects stack.source) key.row id e.space.negated
  simp only [pseudoDocument, hsource, hsame, herror]

theorem exists_document_of_no_failure {stack : Stack} {row : Bytes} {id : DocumentId} {negated : List Descriptor}
    (hruns : ¬NegatedLookup.RunsIntoFailure stack.source.journaled row id negated) :
    ∃ found, (NegatedLookup.document stack.source row id negated).2 = .ok found := by
  obtain ⟨valid, hascends⟩ := stack.exists_ascends
  have hsame := NegatedLookup.document_projects (Source.journaled_projects stack.source) row id negated
  have hnot := mt (NegatedLookup.document_error_iff hascends.journaled row id negated).mp hruns
  cases hfound : (NegatedLookup.document stack.source row id negated).2 with
  | error error => exact absurd ⟨error, hsame.symm.trans hfound⟩ hnot
  | ok found => exact ⟨found, rfl⟩

theorem pseudoDocument_healthy {e : Engine} {key : Key} {id : DocumentId} {stack : Stack}
    (hsource : e.source = some stack)
    (hruns : ¬NegatedLookup.RunsIntoFailure stack.source.journaled key.row id e.space.negated) :
    ({ e with source := some stack.healthy } : Engine).pseudoDocument key id = e.pseudoDocument key id := by
  obtain ⟨found, hfound⟩ := exists_document_of_no_failure hruns
  rw [pseudoDocument_eq hsource hfound]
  exact pseudoDocument_eq rfl (NegatedLookup.document_follows stack.follows_healthy hfound)

/-- An evaluation depends on the source only through what a lookup finds there, if there is one. -/
theorem outcome_evaluate_congr {e : Engine} {key : Key} {source : Option Stack}
    (hsame : (e.space.hasNegated && e.config.isTopLevelDocument) = true → ∀ id, key.documentId = .ok id →
      ({ e with source } : Engine).pseudoDocument key id = e.pseudoDocument key id) (document : Document) :
    (e.evaluate key document).outcome = (({ e with source } : Engine).evaluate key document).outcome := by
  unfold evaluate
  cases hkey : key.documentId with
  | error fault => rfl
  | ok id =>
    cases hlookup : e.space.hasNegated && e.config.isTopLevelDocument with
    | false => rfl
    | true =>
      simp only [if_true, outcome_negatedDocument, hsame hlookup id hkey]
      rfl

theorem documentOccurrences_error_iff {e : Engine} {documents : List Document} :
    (∃ error, e.documentOccurrences documents = .error error) ↔ ∃ field ∈ e.space.fields, ∃ document ∈ documents,
      ∃ a ∈ document.forField field,
        Utf8.encode (pairName a.value.term field) ∈ e.space.pairs ∧ ∃ fault, a.documentId = .error fault := by
  rw [documentOccurrences, exists_map_error_iff, exists_mapM_error_iff]
  refine exists_congr fun field => and_congr_right fun _ => ?_
  rw [exists_map_error_iff, exists_mapM_error_iff]
  refine exists_congr fun document => and_congr_right fun _ => ?_
  rw [← Occurrence.ofAttributes_error_iff]
  cases Occurrence.ofAttributes field e.space.pairs (document.forField field) with
  | ok found => simp [Except.mapError]
  | error fault => simp [Except.mapError]

theorem documentOccurrences_error {e : Engine} {documents : List Document} {error : SearchError}
    (h : e.documentOccurrences documents = .error error) : ∃ fault, error = .malformedKey fault := by
  obtain ⟨field, -, hfield⟩ := exists_of_mapM_error (of_map_error h)
  obtain ⟨document, -, hdocument⟩ := exists_of_mapM_error (of_map_error hfield)
  cases hread : Occurrence.ofAttributes field e.space.pairs (document.forField field) with
  | ok found => simp [hread, Except.mapError] at hdocument
  | error fault =>
    refine ⟨fault, ?_⟩
    rw [hread] at hdocument
    exact (Except.error.inj hdocument).symm

/-- Once the key is read, an evaluation fails just as the occurrences of the document and of one that can be read do. -/
theorem exists_evaluate_error_iff {e : Engine} {key : Key} {id : DocumentId} (hkey : key.documentId = .ok id)
    (document : Document) : ∃ found : Document, found.Readable ∧ ∀ error,
      (e.evaluate key document).outcome = .error error ↔ e.documentOccurrences [document, found] = .error error := by
  refine ⟨if e.space.hasNegated && e.config.isTopLevelDocument then e.pseudoDocument key id else ∅, ?_, fun error => ?_⟩
  · split
    · exact readable_pseudoDocument e key id
    · exact Document.readable_empty
  · unfold evaluate
    cases hlookup : e.space.hasNegated && e.config.isTopLevelDocument with
    | false =>
      cases hheld : e.documentOccurrences [document, ∅] with
      | ok held => simp [hkey, hheld, bind, Except.bind, pure, Except.pure]
      | error fault => simp [hkey, hheld, bind, Except.bind]
    | true =>
      cases hheld : e.documentOccurrences [document, e.pseudoDocument key id] with
      | ok held => simp [hkey, hheld, outcome_negatedDocument, bind, Except.bind, pure, Except.pure]
      | error fault => simp [hkey, hheld, outcome_negatedDocument, bind, Except.bind]

/-- Failures of the index leave no trace in an evaluation. If a lookup runs into one, the outcome is that without a
source, and otherwise that with a source that never fails. Errors are keys that cannot be read, of the document or of
attributes that the functions ask for. -/
theorem outcome_evaluate_of_failures (e : Engine) (key : Key) (document : Document) :
    (e.LookupFails key →
      (e.evaluate key document).outcome = (({ e with source := none } : Engine).evaluate key document).outcome) ∧
    (¬e.LookupFails key → (e.evaluate key document).outcome =
      (({ e with source := e.source.map Stack.healthy } : Engine).evaluate key document).outcome) ∧
    ((∃ error, (e.evaluate key document).outcome = .error error) ↔
      (∃ fault, key.documentId = .error fault) ∨ ∃ field ∈ e.space.fields, ∃ a ∈ document.forField field,
        Utf8.encode (a.value.term ++ "\x00" ++ field) ∈ e.space.pairs ∧ ∃ fault, a.documentId = .error fault) ∧
    ∀ error, (e.evaluate key document).outcome = .error error → ∃ fault, error = .malformedKey fault := by
  refine ⟨fun hfails => ?_, fun hruns => ?_, ?_, fun error herror => ?_⟩
  · obtain ⟨-, -, stack, hsource, id, hkey, hlookup⟩ := hfails
    refine outcome_evaluate_congr (fun _ id' hkey' => ?_) document
    obtain rfl : id = id' := Except.ok.inj (hkey.symm.trans hkey')
    exact (pseudoDocument_of_failure hsource hlookup).symm
  · refine outcome_evaluate_congr (fun hlookup id hkey => ?_) document
    cases hsource : e.source with
    | none => simp only [pseudoDocument, hsource, Option.map_none]
    | some stack =>
      obtain ⟨hneg, htop⟩ := Bool.and_eq_true_iff.mp hlookup
      have htop := Config.isTopLevelDocument_iff.mp htop
      exact pseudoDocument_healthy hsource fun hfailure => hruns ⟨hneg, htop, stack, hsource, id, hkey, hfailure⟩
  · cases hkey : key.documentId with
    | error fault => simp [evaluate, hkey]
    | ok id =>
      obtain ⟨found, hread, hiff⟩ := exists_evaluate_error_iff (e := e) hkey document
      simp only [hiff, documentOccurrences_error_iff, reduceCtorEq, exists_false, false_or]
      refine exists_congr fun field => and_congr_right fun _ => ?_
      simp only [List.mem_cons, List.not_mem_nil, or_false, exists_eq_or_imp, exists_eq_left]
      apply or_iff_left
      intro hfound
      obtain ⟨a, ha, -, fault, hfault⟩ := hfound
      obtain ⟨id', hid⟩ := hread field a ha
      simp [hid] at hfault
  · cases hkey : key.documentId with
    | error fault =>
      simp only [evaluate, hkey] at herror
      exact ⟨fault, (Except.error.inj herror).symm⟩
    | ok id =>
      obtain ⟨found, -, hiff⟩ := exists_evaluate_error_iff (e := e) hkey document
      exact documentOccurrences_error ((hiff error).mp herror)

/-- An index that holds both terms of the negated function in one field. -/
def dogFoxIndex : FieldIndex :=
  ((∅ : FieldIndex).insertFieldIndex "" "BODY" "dog" ⟨"doc", "u"⟩).insertFieldIndex "" "BODY" "fox" ⟨"doc", "u"⟩

/-- Its source, which fails from the second seek on. -/
def failingSource : Stack := .faulty ⟨.io, some 2, none⟩ (.list dogFoxIndex.snapshot)

def failingEngine : Engine :=
  ofDescriptors catDogNotFox { Config.standard with aggregation := .topLevelDocument } (some failingSource)

/-- The first term is found before the source fails, and does not survive. -/
theorem outcome_evaluate_of_failures_second : failingEngine.LookupFails eventKey ∧
    (failingEngine.evaluate eventKey catEvent).outcome =
      (({ failingEngine with source := none } : Engine).evaluate eventKey catEvent).outcome := by
  have hruns : NegatedLookup.RunsIntoFailure failingSource.source.journaled eventKey.row ⟨"doc", "u"⟩
      failingEngine.space.negated := by
    unfold NegatedLookup.RunsIntoFailure
    decide +kernel
  have hfails : failingEngine.LookupFails eventKey :=
    ⟨by decide, rfl, failingSource, rfl, _, documentId_eventKey, hruns⟩
  exact ⟨hfails, (outcome_evaluate_of_failures failingEngine eventKey catEvent).1 hfails⟩

end Engine

end ProximitySearch
