import ProximitySearch.FieldIndex
import ProximitySearch.Proofs.QueryOrder
import ProximitySearch.Proofs.RenderedQueries

/-!
# The two modes of aggregation

An event holds the terms of negated functions as its own. For a top-level document they are looked up in the
index, under qualifiers that are written for the lookup and read back from what it finds.

Both give the same hits if the index holds exactly the terms of negated functions, for the document, and no
term holds a separator (`evaluate_modes_agree`). A term with a separator is cut there when its qualifier is read, so
that the rest of it is taken for the document, and the term is not found (`evaluate_modes_differ`).
-/

namespace ProximitySearch

open Proximity

/-! ## Names of entries -/

theorem entryKey_inj {row : Bytes} {field value field' value' : String} {id id' : DocumentId} (hv : NulFree value)
    (hv' : NulFree value') (hd : NulFree id.datatype) (hd' : NulFree id'.datatype)
    (h : entryKey row field value id = entryKey row field' value' id') :
    field = field' ∧ value = value' ∧ id = id' := by
  rw [entryKey_eq, entryKey_eq] at h
  obtain ⟨-, hfamily, hqualifier⟩ := Key.mk.inj h
  have hfi : NulFree "fi" := by decide
  obtain ⟨-, rfl⟩ := Composite.join_inj_left hfi hfi (Utf8.encode_inj.mp hfamily)
  obtain ⟨rfl, hrest⟩ := Composite.join_inj_left hv hv' (Utf8.encode_inj.mp hqualifier)
  obtain ⟨hdatatype, howner⟩ := Composite.join_inj_left hd hd' hrest
  obtain ⟨_, _⟩ := id
  obtain ⟨_, _⟩ := id'
  exact ⟨rfl, rfl, DocumentId.mk.injEq .. ▸ ⟨hdatatype, howner⟩⟩

/-! ## Indexes of one document -/

namespace FieldIndex

/-- An index with entries of one document for pairs of a field and a value. -/
def ofPairs (row : String) (id : DocumentId) (pairs : List (String × String)) : FieldIndex :=
  pairs.foldl (fun index pair => index.insertFieldIndex row pair.1 pair.2 id) ∅

variable {row : String} {id : DocumentId} {pairs : List (String × String)}

theorem contains_ofPairs {key : Key} : (ofPairs row id pairs).snapshot.contains key = true ↔
    ∃ pair ∈ pairs, key = entryKey (Utf8.encode row) pair.1 pair.2 id := by
  suffices hfold : ∀ index : FieldIndex,
      (pairs.foldl (fun index pair => index.insertFieldIndex row pair.1 pair.2 id) index).snapshot.contains key = true ↔
        index.snapshot.contains key = true ∨ ∃ pair ∈ pairs, key = entryKey (Utf8.encode row) pair.1 pair.2 id by
    refine (hfold ∅).trans (or_iff_right ?_)
    exact Bool.false_ne_true
  induction pairs with
  | nil => simp
  | cons pair others ih =>
    intro index
    rw [List.foldl_cons, ih]
    have hone : (index.insertFieldIndex row pair.1 pair.2 id).snapshot.contains key = true ↔
        key = entryKey (Utf8.encode row) pair.1 pair.2 id ∨ index.snapshot.contains key = true := by
      rw [entryKey_eq]
      exact SortedMap.contains_insert
    simp only [hone, List.mem_cons, exists_eq_or_imp]
    rw [or_assoc, or_left_comm]

theorem textQualifiers_ofPairs : (ofPairs row id pairs).snapshot.TextQualifiers := by
  suffices hfold : ∀ index : FieldIndex, index.snapshot.TextQualifiers →
      (pairs.foldl (fun index pair => index.insertFieldIndex row pair.1 pair.2 id) index).snapshot.TextQualifiers by
    exact hfold ∅ Entries.textQualifiers_empty
  induction pairs with
  | nil => exact fun _ h => h
  | cons pair others ih => exact fun index h => ih _ (h.insert _ _ _ _)

theorem finds_ofPairs (hvalues : ∀ pair ∈ pairs, NulFree pair.2) (hdatatype : NulFree id.datatype)
    {field value owner : String} (hvalue : NulFree value) :
    (ofPairs row id pairs).snapshot.Finds (Utf8.encode row) id field value owner ↔
      owner = id.owner ∧ (field, value) ∈ pairs := by
  rw [Entries.Finds, contains_ofPairs]
  constructor
  · rintro ⟨-, ⟨f, v⟩, hpair, hkey⟩
    have hread : NulFree (DocumentId.mk id.datatype owner).datatype := hdatatype
    obtain ⟨rfl, rfl, hid⟩ := entryKey_inj hvalue (hvalues _ hpair) hread hdatatype hkey
    exact ⟨congrArg DocumentId.owner hid, hpair⟩
  · rintro ⟨rfl, hpair⟩
    exact ⟨.inl rfl, _, hpair, rfl⟩

end FieldIndex

/-! ## Hits in both modes -/

namespace Engine

/-- What is found in an index of the terms of negated functions is what an event is taken to hold of them. -/
theorem records_pseudoDocument_ofPairs {descriptors : List Descriptor}
    (hvalues : ∀ d ∈ descriptors, d.negated = true → ∀ value ∈ d.values, NulFree value) {config : Config} {row : String}
    {key : Key} (hrow : key.row = Utf8.encode row) {id : DocumentId} (hdatatype : NulFree id.datatype)
    {pairs : List (String × String)} (hpairs : ∀ field value, (field, value) ∈ pairs ↔
      NegatedRequires descriptors field value) {field value owner : String} :
    ((ofDescriptors descriptors config (some (.list (FieldIndex.ofPairs row id pairs).snapshot))).pseudoDocument key
      id).Records field value owner ↔ owner = id.owner ∧ NegatedRequires descriptors field value := by
  let index := FieldIndex.ofPairs row id pairs
  have hnegated : ∀ d ∈ (ofDescriptors descriptors config (some (.list index.snapshot))).space.negated,
      ∀ value ∈ d.values, NulFree value := fun d hd =>
    hvalues d (mem_negated_ofDescriptors.mp hd).1 (mem_negated_ofDescriptors.mp hd).2
  have hfree : ∀ pair ∈ pairs, NulFree pair.2 := by
    intro pair hpair
    obtain ⟨d, hd, hneg, hreq⟩ := (hpairs pair.1 pair.2).mp hpair
    exact hvalues d hd hneg pair.2 hreq.2
  have hfinds {f v o : String} (hv : NulFree v) :
      index.snapshot.Finds key.row id f v o ↔ o = id.owner ∧ NegatedRequires descriptors f v := by
    rw [hrow, FieldIndex.finds_ofPairs hfree hdatatype hv, hpairs]
  have hserves : (Stack.list index.snapshot).source.Serves index.snapshot Source.listShown := Source.ofEntries_serves _
  obtain ⟨found, hfound, hsound, hcomplete⟩ := NegatedLookup.exists_document key.row hserves
    FieldIndex.textQualifiers_ofPairs hdatatype hnegated
  rw [pseudoDocument_eq rfl hfound]
  constructor
  · intro hrec
    obtain ⟨⟨d, hd, hreq⟩, hin⟩ := hsound field value owner hrec
    exact (hfinds (hnegated d hd value hreq.2)).mp hin
  · rintro ⟨rfl, d, hd, hneg, hreq⟩
    -- all terms of the function are in the index
    refine hcomplete d (mem_negated_ofDescriptors.mpr ⟨hd, hneg⟩) field hreq.1 id.owner (fun w hw => ?_) value hreq.2
    exact (hfinds (hvalues d hd hneg w hw)).mpr ⟨rfl, d, hd, hneg, hreq.1, hw⟩

/-- Over an index of just the terms of negated functions, a document has the same hits in both modes. -/
theorem evaluate_modes_agree {descriptors : List Descriptor}
    (hfields : ∀ d ∈ descriptors, ∀ field ∈ d.fields, NulFree field)
    (hvalues : ∀ d ∈ descriptors, d.negated = true → ∀ value ∈ d.values, NulFree value) {event topLevel : Config}
    (hevent : event.aggregation = .event) (htop : topLevel.aggregation = .topLevelDocument) {row : String} {key : Key}
    (hrow : key.row = Utf8.encode row) {id : DocumentId} (hkey : key.documentId = .ok id) {document : Document}
    (hdoc : document.Readable) {pairs : List (String × String)} (hpairs : ∀ field value, (field, value) ∈ pairs ↔
      NegatedRequires descriptors field value) (source : Option Stack) :
    let index := FieldIndex.ofPairs row id pairs
    ∃ hits,
      ((ofDescriptors descriptors topLevel (some (.list index.snapshot))).evaluate key document).outcome = .ok hits ∧
      ((ofDescriptors descriptors event source).evaluate key document).outcome = .ok hits := by
  intro index
  have hdatatype : NulFree id.datatype := (DocumentId.parse_eq_ok_iff.mp hkey).1
  obtain ⟨hits, hok, hmem⟩ := exists_evaluate_declared
    (show (ofDescriptors descriptors topLevel (some (.list index.snapshot))).space.Unions from
      Space.unions_ofDescriptors descriptors)
    (fun d hd => hfields d (Space.mem_ofDescriptors.mp hd)) hkey hdoc
  obtain ⟨hits', hok', hmem'⟩ := exists_evaluate_event hfields hevent source hkey hdoc
  have hsame : hits = hits' := by
    refine SortedSet.ext fun h => ?_
    rw [hmem, hmem', declares_ofDescriptors]
    refine declares_congr fun d _ field w _ owner => ?_
    rw [holds_topLevelDocument htop, records_pseudoDocument_ofPairs hvalues hrow hdatatype hpairs]
    rfl
  exact ⟨hits, hok, hsame ▸ hok'⟩

/-- Pairs of the negated function of `catDogNotFox`. -/
def dogFoxPairs : List (String × String) :=
  [("BODY", "dog"), ("BODY", "fox"), ("TITLE", "dog"), ("TITLE", "fox")]

theorem mem_dogFoxPairs (field value : String) :
    (field, value) ∈ dogFoxPairs ↔ NegatedRequires catDogNotFox field value := by
  simp only [dogFoxPairs, NegatedRequires, catDogNotFox, Descriptor.Requires, List.mem_cons, List.not_mem_nil, or_false,
    exists_eq_or_imp, exists_eq_left, Bool.false_eq_true, false_and, false_or, true_and, SortedSet.mem_ofList,
    Prod.mk.injEq]
  tauto

/-- The document is hit in both modes, at a term of the function that shares another with the negated one. -/
theorem evaluate_modes_agree_dogFox : catEvent.Readable ∧ eventKey.documentId = .ok ⟨"doc", "u"⟩ ∧ ∃ hits,
    ((ofDescriptors catDogNotFox topLevelConfig (some (.list (FieldIndex.ofPairs "" ⟨"doc", "u"⟩
      dogFoxPairs).snapshot))).evaluate eventKey catEvent).outcome = .ok hits ∧
    ((ofDescriptors catDogNotFox .standard none).evaluate eventKey catEvent).outcome = .ok hits ∧
    bodyHit "cat" ∈ hits := by
  have hfree : ∀ d ∈ catDogNotFox, (∀ field ∈ d.fields, NulFree field) ∧ ∀ value ∈ d.values, NulFree value := by
    simp only [catDogNotFox, List.forall_mem_cons, SortedSet.mem_ofList]
    decide
  have hevent : Config.standard.aggregation = .event := rfl
  have htop : topLevelConfig.aggregation = .topLevelDocument := rfl
  have hrow : eventKey.row = Utf8.encode "" := rfl
  obtain ⟨hits, hok, hok'⟩ := evaluate_modes_agree (fun d hd => (hfree d hd).1) (fun d hd _ => (hfree d hd).2) hevent
    htop hrow documentId_eventKey readable_catEvent mem_dogFoxPairs none
  have hhits : ((ofDescriptors catDogNotFox .standard none).evaluate eventKey catEvent).outcome =
      .ok (.ofList [bodyHit "cat", bodyHit "dog", bodyHit "fox", .ofParts ⟨"doc", "u"⟩ "dog" "TITLE",
        .ofParts ⟨"doc", "u"⟩ "fox" "TITLE"]) := by decide +kernel
  obtain rfl := Except.ok.inj (hok'.symm.trans hhits)
  exact ⟨readable_catEvent, documentId_eventKey, _, hok, hok', by decide⟩

/-- A negated function of one term, which holds a separator. -/
def separatedTerm : List Descriptor :=
  [⟨.phrase, true, .ofList ["BODY"], .ofList ["a\x00b"]⟩]

def separatedPhrase : Query.Tree := ⟨[
  ⟨.script, none, [1]⟩,
  ⟨.not, some 0, [2]⟩,
  ⟨.function "content" "phrase", some 1, [3, 4, 5]⟩,
  ⟨.identifier "BODY", some 2, []⟩,
  ⟨.identifier "termOffsetMap", some 2, []⟩,
  ⟨.literal (.string "a\x00b"), some 2, []⟩]⟩

/-- A query can write a term with a separator, and then the modes may differ. -/
theorem evaluate_modes_differ :
    (∀ source, ofQuery "!content:phrase(BODY, termOffsetMap, 'a\\0b')" ∅ .standard source =
      .ok (ofDescriptors separatedTerm .standard source)) ∧
    ¬∀ descriptors : List Descriptor, (∀ d ∈ descriptors, ∀ field ∈ d.fields, Query.IsName field) →
      ∀ (row : String) (key : Key), key.row = Utf8.encode row → ∀ id, key.documentId = .ok id →
      ∀ document : Document, document.Readable → ∀ pairs : List (String × String),
      (∀ field value, (field, value) ∈ pairs ↔ NegatedRequires descriptors field value) →
        ((ofDescriptors descriptors topLevelConfig (some (.list (FieldIndex.ofPairs row id pairs).snapshot))).evaluate
          key document).outcome =
        ((ofDescriptors descriptors .standard (some (.list (FieldIndex.ofPairs row id pairs).snapshot))).evaluate
          key document).outcome := by
  refine ⟨fun source => ?_, fun hall => ?_⟩
  · have hparse : Query.parse "!content:phrase(BODY, termOffsetMap, 'a\\0b')" = .ok separatedPhrase := by
      decide +kernel
    have hspace : Space.ofTree .standard ∅ separatedPhrase =
        .ok (.ofDescriptors [⟨.phrase, separatedPhrase.isNegated 2, .ofList ["BODY"], .ofList ["a\x00b"]⟩]) :=
      Space.ofTree_phrase rfl rfl rfl (by decide) rfl
    have hnegated : separatedPhrase.isNegated 2 = true := by decide +kernel
    rw [hnegated] at hspace
    exact ofQuery_eq_ok_iff.mpr ⟨_, _, hparse, rfl, hspace, rfl⟩
  · have hnames : ∀ d ∈ separatedTerm, ∀ field ∈ d.fields, Query.IsName field := by
      simp only [separatedTerm, List.forall_mem_cons, SortedSet.mem_ofList]
      decide
    have hpairs (field value : String) : (field, value) ∈ [("BODY", "a\x00b")] ↔
        NegatedRequires separatedTerm field value := by
      simp [NegatedRequires, separatedTerm, Descriptor.Requires, SortedSet.mem_ofList]
    have hsame := hall separatedTerm hnames "" eventKey rfl _ documentId_eventKey catEvent readable_catEvent _ hpairs
    have hnone : ((ofDescriptors separatedTerm topLevelConfig (some (.list (FieldIndex.ofPairs "" ⟨"doc", "u"⟩
        [("BODY", "a\x00b")]).snapshot))).evaluate eventKey catEvent).outcome = .ok ∅ := by decide +kernel
    have hone : ((ofDescriptors separatedTerm .standard (some (.list (FieldIndex.ofPairs "" ⟨"doc", "u"⟩
        [("BODY", "a\x00b")]).snapshot))).evaluate eventKey catEvent).outcome =
        .ok (.ofList [bodyHit "a\x00b"]) := by decide +kernel
    rw [hnone, hone] at hsame
    exact absurd hsame (by decide)

end Engine

end ProximitySearch
