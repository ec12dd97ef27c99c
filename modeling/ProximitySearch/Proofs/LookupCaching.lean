import ProximitySearch.Proofs.Evaluation
import ProximitySearch.Proofs.OwnEntries

/-!
# Lookups that are spared

A lookup for negated functions looks no pair of a field and a value up twice, and gives a function up in a
field once one of its values is missing there. No hit is lost by that if the document agrees with the index
(`evaluate_subset_uncached`).

The state of the lookups is faithful: what was found are the owners of the pairs that were fetched, and a
pair that was missed has no owner (`Faithful`). In the end each function is resolved in each of its fields:
either one of its values was missed, and no owner holds all of them, or all were fetched (`Resolved`).
-/

namespace ProximitySearch

open Proximity

namespace NegatedLookup

def RequiredBy (descriptors : List Descriptor) (field value : String) : Prop :=
  ∃ d ∈ descriptors, d.Requires field value

/-! ## Looking everything up -/

section Uncached

variable {σ : Type}

/-- Looks all pairs of a field and a value up, whatever was looked up before. -/
def fetchPairs (index : Source σ) (row : Bytes) (id : DocumentId) :
    (pairs : List (String × String)) → LookupState σ → LookupState σ × Except SearchError Unit
  | [], s => (s, .ok ())
  | (field, value) :: others, s =>
    match fetch index row id field value s with
    | (s, .error e) => (s, .error e)
    | (s, .ok _) => fetchPairs index row id others s

/-- Every value of functions in every one of their fields. -/
def requiredPairs (descriptors : List Descriptor) : List (String × String) :=
  descriptors.flatMap fun d => d.fields.toList.flatMap fun field => d.values.toList.map fun value => (field, value)

/-- What a lookup finds that looks every value up in every field, over and over if need be. -/
def uncachedDocument (index : Source σ) (row : Bytes) (id : DocumentId) (negated : List Descriptor) :
    Except SearchError Document :=
  let (s, outcome) := fetchPairs index.bounded row id (requiredPairs negated) ⟨index.bounded.fresh, ∅, [], []⟩
  outcome.map fun _ => s.found

theorem mem_requiredPairs {descriptors : List Descriptor} {field value : String} :
    (field, value) ∈ requiredPairs descriptors ↔ RequiredBy descriptors field value := by
  simp only [requiredPairs, List.mem_flatMap, List.mem_map, SortedSet.mem_toList, Prod.mk.injEq]
  constructor
  · rintro ⟨d, hd, f, hf, v, hv, rfl, rfl⟩
    exact ⟨d, hd, hf, hv⟩
  · rintro ⟨d, hd, hf, hv⟩
    exact ⟨d, hd, field, hf, value, hv, rfl, rfl⟩

end Uncached

/-! ## What is kept -/

section Invariant

variable {σ : Type} {entries : Entries} {row : Bytes} {id : DocumentId} {required : String → String → Prop}

/-- The state says of pairs that were looked up what the entries say. -/
structure Faithful (entries : Entries) (row : Bytes) (id : DocumentId) (required : String → String → Prop)
    (s : LookupState σ) : Prop where
  found : ∀ f v o, s.found.Records f v o ↔ (f, v) ∈ s.fetched ∧ entries.Finds row id f v o
  missed : ∀ f v, (f, v) ∈ s.missed → ∀ o, ¬entries.Finds row id f v o
  fetched : ∀ f v, (f, v) ∈ s.fetched → required f v

/-- One of the values is known to be missing in a field, or all of them were fetched there. -/
def Resolved (s : LookupState σ) (field : String) (values : List String) : Prop :=
  (∃ value ∈ values, (field, value) ∈ s.missed) ∨ ∀ value ∈ values, (field, value) ∈ s.fetched

theorem Resolved.mono {s s' : LookupState σ} {field : String} {values : List String} (h : Resolved s field values)
    (hgrows : Grows s s') : Resolved s' field values := by
  rcases h with ⟨value, hvalue, hmissed⟩ | hall
  · exact .inl ⟨value, hvalue, hgrows.missed hmissed⟩
  · exact .inr fun value hvalue => hgrows.fetched (hall value hvalue)

theorem faithful_fresh (walk : σ) : Faithful entries row id required ⟨walk, ∅, [], []⟩ where
  found f v o := by simp [Document.not_records_empty]
  missed f v h := absurd h List.not_mem_nil
  fetched f v h := absurd h List.not_mem_nil

theorem Fetched.faithful {field value : String} {s s' : LookupState σ} {isFound : Bool}
    (h : Fetched entries row id field value s s' isFound) (hs : Faithful entries row id required s)
    (hreq : required field value) : Faithful entries row id required s' := by
  obtain ⟨hfound, hiff, hfetched, hmissed⟩ := h
  cases isFound with
  | true =>
    simp only [if_true] at hfetched hmissed
    refine ⟨fun f v o => ?_, fun f v => by rw [hmissed]; exact hs.missed f v, fun f v => ?_⟩
    · rw [hfound, hs.found, hfetched, List.mem_cons, Prod.mk.injEq]
      constructor
      · rintro (⟨hmem, hfinds⟩ | ⟨rfl, rfl, hfinds⟩)
        · exact ⟨.inr hmem, hfinds⟩
        · exact ⟨.inl ⟨rfl, rfl⟩, hfinds⟩
      · rintro ⟨⟨rfl, rfl⟩ | hmem, hfinds⟩
        · exact .inr ⟨rfl, rfl, hfinds⟩
        · exact .inl ⟨hmem, hfinds⟩
    · rw [hfetched, List.mem_cons, Prod.mk.injEq]
      rintro (⟨rfl, rfl⟩ | hmem)
      · exact hreq
      · exact hs.fetched f v hmem
  | false =>
    simp only [Bool.false_eq_true, if_false] at hfetched hmissed
    have hnone : ∀ o, ¬entries.Finds row id field value o := fun o ho => by simpa using hiff.mpr ⟨o, ho⟩
    refine ⟨fun f v o => ?_, fun f v => ?_, fun f v => by rw [hfetched]; exact hs.fetched f v⟩
    · rw [hfound, hs.found, hfetched]
      refine or_iff_left ?_
      rintro ⟨-, -, hfinds⟩
      exact hnone o hfinds
    · rw [hmissed, List.mem_cons, Prod.mk.injEq]
      rintro (⟨rfl, rfl⟩ | hmem)
      · exact hnone
      · exact hs.missed f v hmem

end Invariant

/-! ## All lookups -/

section Lookups

variable {σ : Type} {index : Source σ} {entries : Entries} {row : Bytes} {id : DocumentId}
  {required : String → String → Prop}
variable (hserves : index.Serves entries Source.listShown) (hdatatype : NulFree id.datatype)
  (hfree : ∀ field value, required field value → NulFree value)
include hserves hdatatype hfree

theorem fetchValues_resolves {field : String} {values : List String} (hreq : ∀ value ∈ values, required field value)
    {s s' : LookupState σ} (hs : Faithful entries row id required s)
    (hrun : fetchValues index row id field values s = (s', .ok ())) :
    Faithful entries row id required s' ∧ Grows s s' ∧ Resolved s' field values := by
  induction values generalizing s with
  | nil =>
    obtain ⟨rfl, -⟩ := Prod.mk.inj hrun
    exact ⟨hs, .refl s, .inr (by simp)⟩
  | cons value others ih =>
    -- once the value is fetched, the others decide
    have hothers {s : LookupState σ} (hs : Faithful entries row id required s) (hvalue : (field, value) ∈ s.fetched)
        (hrun : fetchValues index row id field others s = (s', .ok ())) :
        Faithful entries row id required s' ∧ Grows s s' ∧ Resolved s' field (value :: others) := by
      obtain ⟨hs', hgrows, hres⟩ := ih (fun v hv => hreq v (List.mem_cons_of_mem _ hv)) hs hrun
      refine ⟨hs', hgrows, ?_⟩
      rcases hres with ⟨v, hv, hmissed⟩ | hall
      · exact .inl ⟨v, List.mem_cons_of_mem _ hv, hmissed⟩
      · exact .inr (List.forall_mem_cons.mpr ⟨hgrows.fetched hvalue, hall⟩)
    have hone := hreq value (by simp)
    unfold fetchValues at hrun
    split at hrun
    · next hmem => exact hothers hs hmem hrun
    · split at hrun
      · simp at hrun
      · next hfetch =>
        -- a miss ends the run, and no owner holds all the values
        obtain ⟨rfl, -⟩ := Prod.mk.inj hrun
        have hfetched := fetched_of_fetch hserves (hfree field value hone) hdatatype hfetch
        refine ⟨hfetched.faithful hs hone, grows_of_fetch hfetch, .inl ⟨value, by simp, ?_⟩⟩
        rw [hfetched.missed]
        simp
      · next hfetch =>
        have hfetched := fetched_of_fetch hserves (hfree field value hone) hdatatype hfetch
        obtain ⟨hs', hgrows, hres⟩ := hothers (hfetched.faithful hs hone) (by rw [hfetched.fetched]; simp) hrun
        exact ⟨hs', (grows_of_fetch hfetch).trans hgrows, hres⟩

theorem fetchFields_resolves {values fields : List String}
    (hreq : ∀ field ∈ fields, ∀ value ∈ values, required field value) {s s' : LookupState σ}
    (hs : Faithful entries row id required s) (hrun : fetchFields index row id values fields s = (s', .ok ())) :
    Faithful entries row id required s' ∧ Grows s s' ∧ ∀ field ∈ fields, Resolved s' field values := by
  induction fields generalizing s with
  | nil =>
    obtain ⟨rfl, -⟩ := Prod.mk.inj hrun
    exact ⟨hs, .refl s, by simp⟩
  | cons field others ih =>
    have hothers {s : LookupState σ} (hs : Faithful entries row id required s) (hres : Resolved s field values)
        (hrun : fetchFields index row id values others s = (s', .ok ())) :
        Faithful entries row id required s' ∧ Grows s s' ∧ ∀ f ∈ field :: others, Resolved s' f values := by
      obtain ⟨hs', hgrows, hall⟩ := ih (fun f hf => hreq f (List.mem_cons_of_mem _ hf)) hs hrun
      exact ⟨hs', hgrows, List.forall_mem_cons.mpr ⟨hres.mono hgrows, hall⟩⟩
    unfold fetchFields at hrun
    split at hrun
    · next hmissed =>
      obtain ⟨value, hvalue, hmem⟩ := List.any_eq_true.mp hmissed
      exact hothers hs (.inl ⟨value, hvalue, by simpa using hmem⟩) hrun
    · split at hrun
      · simp at hrun
      · next hvalues =>
        obtain ⟨hs₁, hgrows, hres⟩ := fetchValues_resolves hserves hdatatype hfree (hreq field (by simp)) hs hvalues
        obtain ⟨hs', hgrows', hall⟩ := hothers hs₁ hres hrun
        exact ⟨hs', hgrows.trans hgrows', hall⟩

/-- If no lookup failed, the state is faithful in the end, and every function is resolved in every one of its fields. -/
theorem fetchAll_resolves {descriptors : List Descriptor}
    (hreq : ∀ d ∈ descriptors, ∀ field value, d.Requires field value → required field value) {s s' : LookupState σ}
    (hs : Faithful entries row id required s) (hrun : fetchAll index row id descriptors s = (s', .ok ())) :
    Faithful entries row id required s' ∧ Grows s s' ∧
      ∀ d ∈ descriptors, ∀ field ∈ d.fields, Resolved s' field d.values.toList := by
  induction descriptors generalizing s with
  | nil =>
    obtain ⟨rfl, -⟩ := Prod.mk.inj hrun
    exact ⟨hs, .refl s, by simp⟩
  | cons d others ih =>
    unfold fetchAll at hrun
    split at hrun
    · simp at hrun
    · next hfields =>
      obtain ⟨hs₁, hgrows, hres⟩ := fetchFields_resolves hserves hdatatype hfree
        (fun field hf value hv => hreq d (by simp) field value ⟨hf, hv⟩) hs hfields
      obtain ⟨hs', hgrows', hall⟩ := ih (fun d' hd' => hreq d' (List.mem_cons_of_mem _ hd')) hs₁ hrun
      refine ⟨hs', hgrows.trans hgrows', List.forall_mem_cons.mpr ⟨fun field hf => ?_, hall⟩⟩
      exact (hres field hf).mono hgrows'

variable (htext : entries.TextQualifiers)
include htext

theorem fetchAll_succeeds {descriptors : List Descriptor}
    (hreq : ∀ d ∈ descriptors, ∀ field value, d.Requires field value → required field value) (s : LookupState σ) :
    ∃ s', fetchAll index row id descriptors s = (s', .ok ()) := by
  cases hrun : fetchAll index row id descriptors s with
  | mk s' outcome =>
    cases outcome with
    | ok => exact ⟨s', rfl⟩
    | error fault =>
      obtain ⟨d, hd, field, value, hrequires, s₁, s₂, hfails⟩ := fetchAll_error hrun
      obtain ⟨_, _, hfetch, -⟩ :=
        fetch_spec hserves (hfree field value (hreq d hd field value hrequires)) hdatatype htext s₁
      exact absurd (hfails.symm.trans hfetch) (by simp)

theorem fetchPairs_spec {pairs : List (String × String)} (hreq : ∀ p ∈ pairs, required p.1 p.2) (s : LookupState σ) :
    ∃ s', fetchPairs index row id pairs s = (s', .ok ()) ∧ ∀ f v o, s'.found.Records f v o ↔
      s.found.Records f v o ∨ (f, v) ∈ pairs ∧ entries.Finds row id f v o := by
  induction pairs generalizing s with
  | nil => exact ⟨s, rfl, by simp⟩
  | cons pair others ih =>
    obtain ⟨field, value⟩ := pair
    have hone : required field value := hreq (field, value) (by simp)
    obtain ⟨s₁, isFound, hfetch, hfetched⟩ := fetch_spec hserves (hfree field value hone) hdatatype htext s
    obtain ⟨s', hrun, hrecords⟩ := ih (fun p hp => hreq p (List.mem_cons_of_mem _ hp)) s₁
    refine ⟨s', by rw [fetchPairs, hfetch]; exact hrun, fun f v o => ?_⟩
    rw [hrecords, hfetched.found, List.mem_cons, Prod.mk.injEq]
    constructor
    · rintro ((hrec | ⟨rfl, rfl, hfinds⟩) | ⟨hmem, hfinds⟩)
      · exact .inl hrec
      · exact .inr ⟨.inl ⟨rfl, rfl⟩, hfinds⟩
      · exact .inr ⟨.inr hmem, hfinds⟩
    · rintro (hrec | ⟨⟨rfl, rfl⟩ | hmem, hfinds⟩)
      · exact .inl (.inl hrec)
      · exact .inl (.inr ⟨rfl, rfl, hfinds⟩)
      · exact .inr ⟨hmem, hfinds⟩

end Lookups

/-! ## What was found -/

section Found

variable {σ : Type} {index : Source σ} {entries : Entries} {row : Bytes} {id : DocumentId} {negated : List Descriptor}

theorem readable_uncachedDocument {found : Document} (h : uncachedDocument index row id negated = .ok found) :
    found.Readable := by
  have hinv (pairs : List (String × String)) (s : LookupState (BoundedState σ)) (hs : s.found.Readable) :
      (fetchPairs index.bounded row id pairs s).1.found.Readable := by
    induction pairs generalizing s with
    | nil => exact hs
    | cons pair others ih =>
      obtain ⟨field, value⟩ := pair
      have hone : (fetch index.bounded row id field value s).1.found.Readable := by
        refine fetch_found_invariant (P := Document.Readable) (fun owner found hfree _ hfound => ?_) hs
        exact hfound.put ⟨owner, documentId_attributeOf hfree row field value⟩
      unfold fetchPairs
      split
      · next heq => rwa [heq] at hone
      · next heq => rw [heq] at hone; exact ih _ hone
  have hlast := hinv (requiredPairs negated) ⟨index.bounded.fresh, ∅, [], []⟩ Document.readable_empty
  unfold uncachedDocument at h
  cases hrun : fetchPairs index.bounded row id (requiredPairs negated) ⟨index.bounded.fresh, ∅, [], []⟩ with
  | mk s outcome =>
    rw [hrun] at h hlast
    cases outcome with
    | error e => simp [Except.map] at h
    | ok =>
      obtain rfl := Except.ok.inj h
      exact hlast

variable (hserves : index.Serves entries Source.listShown) (htext : entries.TextQualifiers)
  (hdatatype : NulFree id.datatype) (hvalues : ∀ d ∈ negated, ∀ value ∈ d.values, NulFree value)

include hvalues in
theorem nulFree_of_requiredBy (field value : String) (h : RequiredBy negated field value) : NulFree value := by
  obtain ⟨d, hd, hreq⟩ := h
  exact hvalues d hd value hreq.2

variable (row)
include hserves htext hdatatype hvalues

theorem exists_uncachedDocument : ∃ found, uncachedDocument index row id negated = .ok found ∧
    ∀ f v o, found.Records f v o ↔ RequiredBy negated f v ∧ entries.Finds row id f v o := by
  obtain ⟨s', hrun, hrecords⟩ := fetchPairs_spec (bounded_serves_listShown hserves) hdatatype
    (nulFree_of_requiredBy hvalues) htext (fun p hp => mem_requiredPairs.mp hp) ⟨index.bounded.fresh, ∅, [], []⟩
  refine ⟨s'.found, by rw [uncachedDocument, hrun]; rfl, fun f v o => ?_⟩
  rw [hrecords, mem_requiredPairs]
  exact or_iff_right (Document.not_records_empty f v o)

omit htext in
theorem exists_state_of_document {found : Document} (hfound : (document index row id negated).2 = .ok found) :
    ∃ s : LookupState (BoundedState σ), s.found = found ∧ Faithful entries row id (RequiredBy negated) s ∧
      ∀ d ∈ negated, ∀ field ∈ d.fields, Resolved s field d.values.toList := by
  obtain ⟨s, hrun, rfl⟩ := document_eq_ok_iff.mp hfound
  obtain ⟨hs, -, hres⟩ := fetchAll_resolves (bounded_serves_listShown hserves) hdatatype (nulFree_of_requiredBy hvalues)
    (fun (d : Descriptor) (hd : d ∈ negated) f v hreq => ⟨d, hd, hreq⟩) (faithful_fresh index.bounded.fresh) hrun
  exact ⟨s, rfl, hs, hres⟩

/-- What is found is true of the entries, and if an owner holds all values of a function in a field, all are
found. -/
theorem exists_document : ∃ found, (document index row id negated).2 = .ok found ∧
    (∀ f v o, found.Records f v o → RequiredBy negated f v ∧ entries.Finds row id f v o) ∧
      ∀ d ∈ negated, ∀ f ∈ d.fields, ∀ o, (∀ w ∈ d.values, entries.Finds row id f w o) →
        ∀ w ∈ d.values, found.Records f w o := by
  obtain ⟨s', hrun⟩ : ∃ s', fetchAll index.bounded row id negated ⟨index.bounded.fresh, ∅, [], []⟩ = (s', .ok ()) :=
    fetchAll_succeeds (bounded_serves_listShown hserves) hdatatype (nulFree_of_requiredBy hvalues) htext
      (fun d hd f v hreq => ⟨d, hd, hreq⟩) _
  have hfound : (document index row id negated).2 = .ok s'.found := document_eq_ok_iff.mpr ⟨s', hrun, rfl⟩
  obtain ⟨s, hsame, hs, hres⟩ := exists_state_of_document row hserves hdatatype hvalues hfound
  rw [← hsame] at hfound
  refine ⟨s.found, hfound, fun f v o hrec => ?_, fun d hd f hf o hall w hw => ?_⟩
  · obtain ⟨hmem, hfinds⟩ := (hs.found f v o).mp hrec
    exact ⟨hs.fetched f v hmem, hfinds⟩
  · rcases hres d hd f hf with ⟨v, hv, hmissed⟩ | hfetched
    · exact absurd (hall v hv) (hs.missed f v hmissed o)
    · exact (hs.found f w o).mpr ⟨hfetched w hw, hall w hw⟩

end Found

end NegatedLookup

/-! ## Hits -/

namespace Engine

/-- Hits of a document if every value of every negated function is looked up in every one of its fields. -/
def evaluateUncached (e : Engine) (key : Key) (document : Document) : Except SearchError (SortedSet Hit) := do
  let id ← key.documentId.mapError .malformedKey
  let found ← match e.source with
    | none => .ok ∅
    | some stack => NegatedLookup.uncachedDocument stack.source key.row id e.space.negated
  let held ← e.documentOccurrences [document, found]
  return Occurrence.hits held id.datatype e.space.descriptors

/-- A document agrees with what was found if each owner that it records for a pair of a negated function was
found, and each owner that was found for a pair of another function is recorded. -/
structure Agrees (descriptors : List Descriptor) (document found : Document) : Prop where
  negated : ∀ d ∈ descriptors, d.negated = true → ∀ field value, d.Requires field value →
    ∀ owner, document.Records field value owner → found.Records field value owner
  positive : ∀ d ∈ descriptors, d.negated = false → ∀ field value, d.Requires field value →
    ∀ owner, found.Records field value owner → document.Records field value owner

/-- If a document agrees with all that can be found, and what was found of a negated function is complete
wherever an owner holds all its values, then what was found declares the same hits. -/
theorem Agrees.declares {descriptors : List Descriptor} {document found full : Document}
    (hagrees : Agrees descriptors document full)
    (hcomplete : ∀ d ∈ descriptors, d.negated = true → ∀ field ∈ d.fields, ∀ owner,
      (∀ w ∈ d.values, full.Records field w owner) → ∀ w ∈ d.values, found.Records field w owner)
    {datatype : String} {h : Hit} (hdecl : Declares descriptors datatype (fun field value owner =>
      document.Records field value owner ∨ full.Records field value owner) h) :
    Declares descriptors datatype (fun field value owner =>
      document.Records field value owner ∨ found.Records field value owner) h := by
  refine hdecl.mono fun d hd field hfield owner hall w hw => ?_
  cases hd' : d.negated with
  | true =>
    have hfull : ∀ w ∈ d.values, full.Records field w owner := fun w hw =>
      (hall w hw).elim (hagrees.negated d hd hd' field w ⟨hfield, hw⟩ owner) fun h => h
    exact .inr (hcomplete d hd hd' field hfield owner hfull w hw)
  | false =>
    exact .inl ((hall w hw).elim (fun h => h) (hagrees.positive d hd hd' field w ⟨hfield, hw⟩ owner))

theorem exists_evaluateUncached_declared {e : Engine} (hunions : e.space.Unions)
    (hfields : ∀ d ∈ e.space.descriptors, ∀ field ∈ d.fields, NulFree field) {key : Key} {id : DocumentId}
    (hkey : key.documentId = .ok id) {document found : Document} (hdoc : document.Readable) {stack : Stack}
    (hsource : e.source = some stack)
    (hfound : NegatedLookup.uncachedDocument stack.source key.row id e.space.negated = .ok found) :
    ∃ hits, e.evaluateUncached key document = .ok hits ∧ ∀ h, h ∈ hits ↔
      Declares e.space.descriptors id.datatype (fun field value owner =>
        document.Records field value owner ∨ found.Records field value owner) h := by
  have hread : ∀ d ∈ [document, found], d.Readable := by
    simp [hdoc, NegatedLookup.readable_uncachedDocument hfound]
  have hnone : Occurrence.Named [] := fun _ ho => absurd ho List.not_mem_nil
  obtain ⟨held, hheld, hmem⟩ := exists_hits_declared hunions hfields hnone hread id.datatype
  refine ⟨Occurrence.hits held id.datatype e.space.descriptors, ?_, fun h => by simpa using hmem h⟩
  simp only [evaluateUncached, hkey, hsource, hfound, Except.mapError, bind, Except.bind, hheld, pure, Except.pure]

/-- Over a list the lookups that are spared add no hit, and lose none if the document agrees with what
looking everything up finds, which is what the entries say of the pairs of negated functions. -/
theorem evaluate_subset_uncached {descriptors : List Descriptor}
    (hfields : ∀ d ∈ descriptors, ∀ field ∈ d.fields, NulFree field)
    (hvalues : ∀ d ∈ descriptors, ∀ value ∈ d.values, NulFree value) {config : Config}
    (hmode : config.aggregation = .topLevelDocument) {entries : Entries} (htext : entries.TextQualifiers) {key : Key}
    {id : DocumentId} (hkey : key.documentId = .ok id) {document : Document} (hdoc : document.Readable) :
    ∃ hits every full,
      ((ofDescriptors descriptors config (some (.list entries))).evaluate key document).outcome = .ok hits ∧
      (ofDescriptors descriptors config (some (.list entries))).evaluateUncached key document = .ok every ∧
      NegatedLookup.uncachedDocument (Stack.list entries).source key.row id
        (Space.ofDescriptors descriptors).negated = .ok full ∧
      (∀ field value owner, full.Records field value owner ↔
        (∃ d ∈ descriptors, d.negated = true ∧ d.Requires field value) ∧
          entries.Finds key.row id field value owner) ∧
      (∀ h ∈ hits, h ∈ every) ∧ (Agrees descriptors document full → hits = every) := by
  let e := ofDescriptors descriptors config (some (.list entries))
  have hmem (d : Descriptor) : d ∈ e.space.descriptors ↔ d ∈ descriptors := Space.mem_ofDescriptors
  have hneg (d : Descriptor) : d ∈ e.space.negated ↔ d ∈ descriptors ∧ d.negated = true := by
    rw [Space.mem_negated, hmem]
  have hunions : e.space.Unions := Space.unions_ofDescriptors descriptors
  have hfree : ∀ d ∈ e.space.descriptors, ∀ field ∈ d.fields, NulFree field := fun d hd => hfields d ((hmem d).mp hd)
  have hserves : (Stack.list entries).source.Serves entries Source.listShown := Source.ofEntries_serves entries
  have hdatatype : NulFree id.datatype := (DocumentId.parse_eq_ok_iff.mp hkey).1
  have hnegValues : ∀ d ∈ e.space.negated, ∀ value ∈ d.values, NulFree value :=
    fun d hd => hvalues d ((hneg d).mp hd).1
  obtain ⟨full, hfull, hfullIff⟩ :=
    NegatedLookup.exists_uncachedDocument key.row hserves htext hdatatype hnegValues
  obtain ⟨found, hfound, hsound, hcomplete⟩ :=
    NegatedLookup.exists_document key.row hserves htext hdatatype hnegValues
  have hpseudo : e.pseudoDocument key id = found := pseudoDocument_eq rfl hfound
  have hholds (field value owner : String) : e.Holds key id document field value owner ↔
      document.Records field value owner ∨ found.Records field value owner := by
    rw [holds_topLevelDocument hmode, hpseudo]
  obtain ⟨hits, hhits, hhitsIff⟩ := exists_evaluate_declared hunions hfree hkey hdoc
  obtain ⟨every, hevery, heveryIff⟩ := exists_evaluateUncached_declared hunions hfree hkey hdoc rfl hfull
  have hsubset : ∀ h ∈ hits, h ∈ every := by
    intro h hh
    refine (heveryIff h).mpr (((hhitsIff h).mp hh).mono fun d hd field hfield owner hall w hw => ?_)
    exact ((hholds field w owner).mp (hall w hw)).imp_right fun hrec =>
      (hfullIff field w owner).mpr (hsound field w owner hrec)
  refine ⟨hits, every, full, hhits, hevery, hfull, fun field value owner => ?_, hsubset, fun hagrees => ?_⟩
  · rw [hfullIff]
    refine and_congr_left fun _ => exists_congr fun d => ?_
    rw [hneg, and_assoc]
  · refine SortedSet.ext fun h => ⟨hsubset h, fun hh => (hhitsIff h).mpr ?_⟩
    have hagrees' : Agrees e.space.descriptors document full := by
      constructor
      · exact fun d hd => hagrees.negated d ((hmem d).mp hd)
      · exact fun d hd => hagrees.positive d ((hmem d).mp hd)
    have hdecl := hagrees'.declares (fun d hd hd' field hfield owner hall w hw =>
      hcomplete d ((hneg d).mpr ⟨(hmem d).mp hd, hd'⟩) field hfield owner
        (fun w hw => ((hfullIff field w owner).mp (hall w hw)).2) w hw) ((heveryIff h).mp hh)
    exact (declares_congr fun d hd field w hreq owner => (hholds field w owner).symm).mp hdecl

/-- Two negated functions that share a term, in two fields. -/
def noDogFoxOwl : List Descriptor :=
  [⟨.phrase, true, .ofList ["BODY", "TITLE"], .ofList ["dog", "fox"]⟩,
    ⟨.within, true, .ofList ["BODY", "TITLE"], .ofList ["fox", "owl"]⟩]

/-- An index with all terms in one field of a part, and with those that are not shared in the other of the document. -/
def foxIndex : FieldIndex :=
  [("BODY", "dog", "u.1"), ("BODY", "fox", "u.1"), ("BODY", "owl", "u.1"), ("TITLE", "dog", "u"),
    ("TITLE", "owl", "u")].foldl (fun index (field, value, owner) => index.insertFieldIndex "" field value
      ⟨"doc", owner⟩) ∅

/-- The shared term is fetched in one field and missed in the other before the second function comes, which spares three
lookups of eight, one of them of an entry. The document records no term, so it agrees with the index, and no hit is
lost. -/
theorem evaluate_subset_uncached_fox : catEvent.Readable ∧ foxIndex.snapshot.TextQualifiers ∧
    (NegatedLookup.requiredPairs noDogFoxOwl).length = 8 ∧
    ((ofDescriptors noDogFoxOwl ⟨.topLevelDocument, "tf", .standard⟩ (some (.list foxIndex.snapshot))).evaluate eventKey
      catEvent).seeks.length = 5 ∧ ∃ hits,
    ((ofDescriptors noDogFoxOwl ⟨.topLevelDocument, "tf", .standard⟩ (some (.list foxIndex.snapshot))).evaluate eventKey
      catEvent).outcome = .ok hits ∧
    (ofDescriptors noDogFoxOwl ⟨.topLevelDocument, "tf", .standard⟩ (some (.list foxIndex.snapshot))).evaluateUncached
      eventKey catEvent = .ok hits ∧ ⟨"doc\x00u.1\x00owl\x00BODY"⟩ ∈ hits := by
  have htext : foxIndex.snapshot.TextQualifiers :=
    ((((Entries.textQualifiers_empty.insert _ _ _ _).insert _ _ _ _).insert _ _ _ _).insert _ _ _ _).insert _ _ _ _
  have hfree : ∀ d ∈ noDogFoxOwl, (∀ field ∈ d.fields, NulFree field) ∧ ∀ value ∈ d.values, NulFree value := by
    simp only [noDogFoxOwl, List.forall_mem_cons, SortedSet.mem_ofList]
    decide
  have hmode : (Config.mk .topLevelDocument "tf" .standard).aggregation = .topLevelDocument := rfl
  obtain ⟨hits, every, full, hhits, hevery, -, -, -, hagrees⟩ :=
    evaluate_subset_uncached (fun d hd => (hfree d hd).1) (fun d hd => (hfree d hd).2) hmode htext
      documentId_eventKey readable_catEvent
  have hsame : Agrees noDogFoxOwl catEvent full := by
    have hnone : ∀ d ∈ noDogFoxOwl, d.negated = true ∧ "cat" ∉ d.values := by decide
    constructor
    · rintro d hd - field value hreq owner ⟨a, ha, rfl, -⟩
      rcases Document.mem_forField_put.mp ha with ha | ⟨-, rfl⟩
      · simp at ha
      · exact absurd hreq.2 (hnone d hd).2
    · intro d hd hpositive
      exact absurd (hnone d hd).1 (by simp [hpositive])
  have hlist : ((ofDescriptors noDogFoxOwl ⟨.topLevelDocument, "tf", .standard⟩
      (some (.list foxIndex.snapshot))).evaluate eventKey catEvent).outcome =
        .ok (.ofList [⟨"doc\x00u.1\x00dog\x00BODY"⟩, ⟨"doc\x00u.1\x00fox\x00BODY"⟩,
          ⟨"doc\x00u.1\x00owl\x00BODY"⟩]) := by decide +kernel
  obtain rfl := Except.ok.inj (hhits.symm.trans hlist)
  exact ⟨readable_catEvent, htext, by decide, by decide +kernel, _, hhits, hagrees hsame ▸ hevery, by decide⟩

end Engine

end ProximitySearch
