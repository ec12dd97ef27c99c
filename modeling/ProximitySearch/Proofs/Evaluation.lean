import ProximitySearch.Engine
import ProximitySearch.Proofs.Lookup

/-!
# What an evaluation hits

The hits of an evaluation are declared by its functions: they are the pairs of a function at each owner that
holds, in one of the fields, every value that the function asks for (`evaluate_hits_declared`). What an
owner holds is recorded in the document, or else comes from the negated functions: as pairs of the event
itself, or as what a lookup in the index finds.

The declaration is read off per field and value, though the engine keys what it knows by the pair of both.
Fields without separators make that no difference (`Occurrence.mem_hits`).
-/

namespace ProximitySearch

open Proximity

/-- Functions declare the hits `datatype\0owner\0value\0field` of a value of one of them, at an owner that holds all
its values in the field. -/
def Declares (descriptors : List Descriptor) (datatype : String) (holds : (field value owner : String) → Prop)
    (h : Hit) : Prop :=
  ∃ d ∈ descriptors, ∃ field ∈ d.fields, ∃ value ∈ d.values, ∃ owner,
    h.name = datatype ++ "\x00" ++ owner ++ "\x00" ++ value ++ "\x00" ++ field ∧ ∀ w ∈ d.values, holds field w owner

theorem Declares.mono {descriptors : List Descriptor} {datatype : String}
    {holds holds' : String → String → String → Prop} {h : Hit} (hdecl : Declares descriptors datatype holds h)
    (himp : ∀ d ∈ descriptors, ∀ field ∈ d.fields, ∀ owner, (∀ w ∈ d.values, holds field w owner) →
      ∀ w ∈ d.values, holds' field w owner) : Declares descriptors datatype holds' h := by
  obtain ⟨d, hd, field, hfield, value, hvalue, owner, hh, hall⟩ := hdecl
  exact ⟨d, hd, field, hfield, value, hvalue, owner, hh, himp d hd field hfield owner hall⟩

theorem declares_congr {descriptors : List Descriptor} {datatype : String}
    {holds holds' : String → String → String → Prop} {h : Hit}
    (hiff : ∀ d ∈ descriptors, ∀ field w, d.Requires field w → ∀ owner, holds field w owner ↔ holds' field w owner) :
    Declares descriptors datatype holds h ↔ Declares descriptors datatype holds' h := by
  constructor
  · intro hdecl
    exact hdecl.mono fun d hd field hfield owner hall w hw => (hiff d hd field w ⟨hfield, hw⟩ owner).mp (hall w hw)
  · intro hdecl
    exact hdecl.mono fun d hd field hfield owner hall w hw => (hiff d hd field w ⟨hfield, hw⟩ owner).mpr (hall w hw)

namespace Engine

def ofDescriptors (descriptors : List Descriptor) (config : Config) (source : Option Stack) : Engine :=
  ⟨.ofDescriptors descriptors, config, source⟩

theorem ofQuery_eq_ok_iff {text : String} {known : FieldValues} {config : Config} {source : Option Stack} {e : Engine} :
    ofQuery text known config source = .ok e ↔ ∃ t space, Query.parse text = .ok t ∧ config.validate = .ok () ∧
      Space.ofTree config.functions known t = .ok space ∧ e = ⟨space, config, source⟩ := by
  unfold ofQuery
  cases hparse : Query.parse text with
  | error error => simp [bind, Except.bind]
  | ok t =>
    cases hvalid : config.validate with
    | error fault => simp [bind, Except.bind, Except.mapError]
    | ok =>
      cases hspace : Space.ofTree config.functions known t with
      | error error => simp [bind, Except.bind, Except.mapError, hspace]
      | ok space => simp [bind, Except.bind, Except.mapError, hspace, pure, Except.pure, eq_comm]

section OfDescriptors

variable {descriptors : List Descriptor} {config : Config} {source : Option Stack}

theorem mem_negated_ofDescriptors {d : Descriptor} :
    d ∈ (ofDescriptors descriptors config source).space.negated ↔ d ∈ descriptors ∧ d.negated = true := by
  rw [Space.mem_negated]
  exact and_congr_left fun _ => Space.mem_ofDescriptors

theorem declares_ofDescriptors {datatype : String} {holds : String → String → String → Prop} {h : Hit} :
    Declares (ofDescriptors descriptors config source).space.descriptors datatype holds h ↔
      Declares descriptors datatype holds h := by
  have hmem (d : Descriptor) : d ∈ (ofDescriptors descriptors config source).space.descriptors ↔ d ∈ descriptors :=
    Space.mem_ofDescriptors
  simp only [Declares, hmem]

end OfDescriptors

/-- What a lookup finds in the source; nothing if there is none, or if it fails. -/
def pseudoDocument (e : Engine) (key : Key) (id : DocumentId) : Document :=
  match e.source with
  | none => ∅
  | some stack =>
    match (NegatedLookup.document stack.source key.row id e.space.negated).2 with
    | .ok found => found
    | .error _ => ∅

/-- An owner holds a value in a field if the document records it there; or, of an event, if the owner is the
event itself and a negated function requires it; or, of a top-level document, if a lookup finds it. -/
def Holds (e : Engine) (key : Key) (id : DocumentId) (document : Document) (field value owner : String) : Prop :=
  document.Records field value owner ∨
    (e.config.aggregation = .event ∧ owner = id.owner ∧ ∃ d ∈ e.space.negated, d.Requires field value) ∨
    (e.config.aggregation = .topLevelDocument ∧ (e.pseudoDocument key id).Records field value owner)

section Holds

variable {e : Engine} {key : Key} {id : DocumentId} {document : Document} {field value owner : String}

theorem holds_event (hmode : e.config.aggregation = .event) : e.Holds key id document field value owner ↔
    document.Records field value owner ∨ owner = id.owner ∧ ∃ d ∈ e.space.negated, d.Requires field value := by
  simp [Holds, hmode]

theorem holds_topLevelDocument (hmode : e.config.aggregation = .topLevelDocument) :
    e.Holds key id document field value owner ↔
      document.Records field value owner ∨ (e.pseudoDocument key id).Records field value owner := by
  simp [Holds, hmode]

end Holds

/-! ## Lookups -/

theorem readable_pseudoDocument (e : Engine) (key : Key) (id : DocumentId) : (e.pseudoDocument key id).Readable := by
  unfold pseudoDocument
  split
  · exact Document.readable_empty
  · split
    · next hfound => exact NegatedLookup.readable_document hfound
    · exact Document.readable_empty

theorem pseudoDocument_eq {e : Engine} {key : Key} {id : DocumentId} {stack : Stack} {found : Document}
    (hsource : e.source = some stack)
    (hfound : (NegatedLookup.document stack.source key.row id e.space.negated).2 = .ok found) :
    e.pseudoDocument key id = found := by
  simp only [pseudoDocument, hsource, hfound]

theorem outcome_negatedDocument (e : Engine) (key : Key) (id : DocumentId) :
    (e.negatedDocument key id).outcome = .ok (e.pseudoDocument key id) := by
  unfold negatedDocument pseudoDocument
  cases e.source with
  | none => rfl
  | some stack =>
    have hsame := NegatedLookup.document_projects (Source.journaled_projects stack.source) key.row id e.space.negated
    dsimp only
    rw [hsame]
    cases (NegatedLookup.document stack.source.journaled key.row id e.space.negated).2 with
    | ok found => rfl
    | error fault => rfl

/-! ## Occurrences -/

section Occurrences

variable {e : Engine}

theorem mem_negatedOccurrences (hunions : e.space.Unions) {id : DocumentId} {o : Occurrence} :
    o ∈ e.negatedOccurrences id ↔ ∃ d ∈ e.space.negated, ∃ field ∈ d.fields, ∃ value ∈ d.values,
      o = ⟨field, pairName value field, id.owner⟩ := by
  unfold negatedOccurrences
  simp only [List.mem_flatMap, List.mem_map, List.mem_filter, decide_eq_true_eq, Descriptor.mem_pairs,
    SortedSet.mem_toList]
  constructor
  · rintro ⟨d, hd, field, hfield, _, ⟨⟨value, hvalue, rfl⟩, -⟩, rfl⟩
    exact ⟨d, hd, field, hfield, value, hvalue, rfl⟩
  · rintro ⟨d, hd, field, hfield, value, hvalue, rfl⟩
    have hpair : Utf8.encode (pairName value field) ∈ e.space.pairs :=
      (hunions.pairs _).mpr ⟨d, (Space.mem_negated.mp hd).1, field, value, ⟨hfield, hvalue⟩, rfl⟩
    exact ⟨d, hd, field, hfield, _, ⟨⟨value, hvalue, rfl⟩, hpair⟩, rfl⟩

theorem exists_documentOccurrences {documents : List Document} (hread : ∀ d ∈ documents, d.Readable) :
    ∃ held, e.documentOccurrences documents = .ok held ∧ ∀ o, o ∈ held ↔ ∃ field ∈ e.space.fields.toList,
      ∃ d ∈ documents, ∃ value owner, d.Records field value owner ∧
        Utf8.encode (pairName value field) ∈ e.space.pairs ∧ o = ⟨field, pairName value field, owner⟩ := by
  refine exists_flatten_mapM_ok fun field _ => exists_flatten_mapM_ok fun d hd => ?_
  obtain ⟨found, hfound, hmem⟩ := Occurrence.exists_ofAttributes e.space.pairs (hread d hd field)
  refine ⟨found, by rw [hfound]; rfl, fun o => (hmem o).trans ?_⟩
  constructor
  · rintro ⟨a, ha, hasked, id, hid, rfl⟩
    exact ⟨a.value.term, id.owner, ⟨a, ha, rfl, id, hid, rfl⟩, hasked, rfl⟩
  · rintro ⟨_, _, ⟨a, ha, rfl, id, hid, rfl⟩, hasked, rfl⟩
    exact ⟨a, ha, hasked, id, hid, rfl⟩

variable (hunions : e.space.Unions) (hfields : ∀ d ∈ e.space.descriptors, ∀ field ∈ d.fields, NulFree field)
include hunions hfields

/-- The hits of what is known and of documents are declared by what is known or recorded in one of them. -/
theorem exists_hits_declared {known : List Occurrence} (hnamed : Occurrence.Named known) {documents : List Document}
    (hread : ∀ d ∈ documents, d.Readable) (datatype : String) :
    ∃ held, e.documentOccurrences documents = .ok held ∧ ∀ h,
      h ∈ Occurrence.hits (known ++ held) datatype e.space.descriptors ↔
        Declares e.space.descriptors datatype (fun field value owner =>
          ⟨field, pairName value field, owner⟩ ∈ known ∨ ∃ d ∈ documents, d.Records field value owner) h := by
  obtain ⟨held, hheld, hmem⟩ := exists_documentOccurrences (e := e) hread
  have hfree : ∀ field ∈ e.space.fields.toList, NulFree field := by
    intro field hfield
    obtain ⟨d, hd, hfield⟩ := (hunions.fields field).mp hfield
    exact hfields d hd field hfield
  have hnamedAll : Occurrence.Named (known ++ held) := by
    intro o ho
    rcases List.mem_append.mp ho with ho | ho
    · exact hnamed o ho
    · obtain ⟨field, hfield, _, _, value, _, _, _, rfl⟩ := (hmem o).mp ho
      exact ⟨hfree field hfield, value, rfl⟩
  -- a function asks for its own pairs, so what is recorded of them is held
  have hheldIff : ∀ d ∈ e.space.descriptors, ∀ field w, d.Requires field w → ∀ owner,
      (⟨field, pairName w field, owner⟩ ∈ known ++ held ↔
        ⟨field, pairName w field, owner⟩ ∈ known ∨ ∃ d ∈ documents, d.Records field w owner) := by
    intro d hd field w hreq owner
    rw [List.mem_append, hmem]
    refine or_congr_right ⟨?_, ?_⟩
    · rintro ⟨field', hfield', d', hd', value', owner', hrec, -, heq⟩
      obtain ⟨rfl, hpair, rfl⟩ := Occurrence.mk.inj heq
      obtain ⟨rfl, -⟩ := pairName_inj (hfree _ hfield') (hfree _ hfield') hpair
      exact ⟨d', hd', hrec⟩
    · rintro ⟨d', hd', hrec⟩
      exact ⟨field, (hunions.fields field).mpr ⟨d, hd, hreq.1⟩, d', hd', w, owner, hrec,
        (hunions.pairs _).mpr ⟨d, hd, field, w, hreq, rfl⟩, rfl⟩
  refine ⟨held, hheld, fun h => ?_⟩
  rw [Occurrence.mem_hits hnamedAll hfields]
  simp only [Hit.eq_ofParts_iff]
  exact declares_congr hheldIff

end Occurrences

/-! ## Evaluations -/

section Evaluations

variable {e : Engine} (hunions : e.space.Unions)
  (hfields : ∀ d ∈ e.space.descriptors, ∀ field ∈ d.fields, NulFree field)
include hunions hfields

theorem named_negatedOccurrences (id : DocumentId) : Occurrence.Named (e.negatedOccurrences id) := by
  intro o ho
  obtain ⟨d, hd, field, hfield, value, hvalue, rfl⟩ := (mem_negatedOccurrences hunions).mp ho
  exact ⟨hfields d (Space.mem_negated.mp hd).1 field hfield, value, rfl⟩

omit hfields in
/-- An evaluation adds what the mode says to the records of the document. Without negated functions nothing
is added in either mode, so the flag need not be looked at. -/
theorem outcome_evaluate {key : Key} {id : DocumentId} (hkey : key.documentId = .ok id) (document : Document) :
    (e.evaluate key document).outcome = (do
      let held ← e.documentOccurrences
        [document, if e.config.isTopLevelDocument then e.pseudoDocument key id else ∅]
      return Occurrence.hits ((if e.config.isTopLevelDocument then [] else e.negatedOccurrences id) ++ held)
        id.datatype e.space.descriptors) := by
  have hlookup := outcome_negatedDocument e key id
  cases hneg : e.space.hasNegated with
  | true =>
    cases hmode : e.config.isTopLevelDocument with
    | true => simp [evaluate, hkey, hneg, hmode, hlookup, bind, Except.bind]
    | false => simp [evaluate, hkey, hneg, hmode, bind, Except.bind]
  | false =>
    have hnil := hunions.negated_eq_nil hneg
    have hpseudo : e.pseudoDocument key id = ∅ := by
      unfold pseudoDocument
      rw [hnil]
      cases e.source with
      | none => rfl
      | some stack => rfl
    have hocc : e.negatedOccurrences id = [] := by rw [negatedOccurrences, hnil, List.flatMap_nil]
    simp [evaluate, hkey, hneg, hpseudo, hocc, bind, Except.bind]

theorem exists_evaluate_declared {key : Key} {id : DocumentId} (hkey : key.documentId = .ok id) {document : Document}
    (hdoc : document.Readable) : ∃ hits, (e.evaluate key document).outcome = .ok hits ∧
      ∀ h, h ∈ hits ↔ Declares e.space.descriptors id.datatype (e.Holds key id document) h := by
  rw [outcome_evaluate hunions hkey]
  cases hmode : e.config.isTopLevelDocument with
  | true =>
    have hread : ∀ d ∈ [document, e.pseudoDocument key id], d.Readable := by
      simp [hdoc, readable_pseudoDocument]
    have hnone : Occurrence.Named [] := fun _ ho => absurd ho List.not_mem_nil
    obtain ⟨held, hheld, hmem⟩ := exists_hits_declared hunions hfields hnone hread id.datatype
    refine ⟨_, by simp [hheld, bind, Except.bind, pure, Except.pure], fun h => (hmem h).trans ?_⟩
    refine declares_congr fun d hd field w hreq owner => ?_
    simp [holds_topLevelDocument (Config.isTopLevelDocument_iff.mp hmode)]
  | false =>
    have hread : ∀ d ∈ [document, (∅ : Document)], d.Readable := by
      simp [hdoc, Document.readable_empty]
    have hnamed := named_negatedOccurrences hunions hfields id
    obtain ⟨held, hheld, hmem⟩ := exists_hits_declared hunions hfields hnamed hread id.datatype
    refine ⟨_, by simp [hheld, bind, Except.bind, pure, Except.pure], fun h => (hmem h).trans ?_⟩
    refine declares_congr fun d hd field w hreq owner => ?_
    have hknown : ⟨field, pairName w field, owner⟩ ∈ e.negatedOccurrences id ↔
        owner = id.owner ∧ ∃ d ∈ e.space.negated, d.Requires field w := by
      rw [mem_negatedOccurrences hunions]
      constructor
      · rintro ⟨d', hd', field', hfield', w', hw', heq⟩
        obtain ⟨rfl, hpair, rfl⟩ := Occurrence.mk.inj heq
        have hfree := hfields d hd field hreq.1
        obtain ⟨rfl, -⟩ := pairName_inj hfree hfree hpair
        exact ⟨rfl, d', hd', hfield', hw'⟩
      · rintro ⟨rfl, d', hd', hreq'⟩
        exact ⟨d', hd', field, hreq'.1, w, hreq'.2, rfl⟩
    simp [holds_event (Config.isTopLevelDocument_eq_false_iff.mp hmode), hknown, Document.not_records_empty, or_comm]

end Evaluations

/-- The hits of a document, in either mode and over any source, are those declared by what its owners hold. -/
theorem evaluate_hits_declared {descriptors : List Descriptor}
    (hfields : ∀ d ∈ descriptors, ∀ field ∈ d.fields, NulFree field) (config : Config) (source : Option Stack)
    {key : Key} {id : DocumentId} (hkey : key.documentId = .ok id) {document : Document} (hdoc : document.Readable) :
    ∃ hits, ((ofDescriptors descriptors config source).evaluate key document).outcome = .ok hits ∧ ∀ h, h ∈ hits ↔
      Declares descriptors id.datatype ((ofDescriptors descriptors config source).Holds key id document) h := by
  have hmem (d : Descriptor) : d ∈ (ofDescriptors descriptors config source).space.descriptors ↔ d ∈ descriptors :=
    Space.mem_ofDescriptors
  obtain ⟨hits, hok, hdecl⟩ := exists_evaluate_declared (e := ofDescriptors descriptors config source)
    (Space.unions_ofDescriptors descriptors) (fun d hd => hfields d ((hmem d).mp hd)) hkey hdoc
  refine ⟨hits, hok, fun h => (hdecl h).trans ?_⟩
  simp only [Declares, hmem]

/-- A function of two terms, and a negated one that shares a term and a field with it. -/
def catDogNotFox : List Descriptor :=
  [⟨.within, false, .ofList ["BODY"], .ofList ["cat", "dog"]⟩,
    ⟨.phrase, true, .ofList ["BODY", "TITLE"], .ofList ["dog", "fox"]⟩]

def eventKey : Key := ⟨[], DocumentId.family ⟨"doc", "u"⟩, []⟩

def catEvent : Document := (∅ : Document).put "BODY" ⟨.text "cat", eventKey⟩

theorem documentId_eventKey : eventKey.documentId = .ok ⟨"doc", "u"⟩ :=
  DocumentId.parse_eq_ok_iff.mpr ⟨by decide, rfl⟩

theorem readable_catEvent : catEvent.Readable :=
  Document.readable_empty.put (a := ⟨.text "cat", eventKey⟩) ⟨_, documentId_eventKey⟩

/-- The event is hit by the function of two terms, for it holds the other through the negated function. -/
theorem evaluate_hits_declared_event : eventKey.documentId = .ok ⟨"doc", "u"⟩ ∧ catEvent.Readable ∧
    ∃ hits, ((ofDescriptors catDogNotFox .standard none).evaluate eventKey catEvent).outcome = .ok hits ∧
      ⟨"doc\x00u\x00cat\x00BODY"⟩ ∈ hits := by
  have hfields : ∀ d ∈ catDogNotFox, ∀ field ∈ d.fields, NulFree field := by
    simp only [catDogNotFox, List.forall_mem_cons, SortedSet.mem_ofList]
    decide
  obtain ⟨hits, hok, hmem⟩ := evaluate_hits_declared hfields .standard none documentId_eventKey readable_catEvent
  refine ⟨documentId_eventKey, readable_catEvent, hits, hok, (hmem _).mpr ?_⟩
  refine ⟨_, List.mem_cons_self, "BODY", by decide, "cat", by decide, "u", rfl, fun w hw => ?_⟩
  obtain rfl | rfl : w = "cat" ∨ w = "dog" := by simpa using SortedSet.mem_ofList.mp hw
  · exact .inl ⟨_, Document.mem_forField_put.mpr (.inr ⟨rfl, rfl⟩), rfl, _, documentId_eventKey, rfl⟩
  · have hnegated : ⟨.phrase, true, .ofList ["BODY", "TITLE"], .ofList ["dog", "fox"]⟩ ∈
        (ofDescriptors catDogNotFox .standard none).space.negated :=
      Space.mem_negated.mpr ⟨Space.mem_ofDescriptors.mpr (List.mem_cons_of_mem _ List.mem_cons_self), rfl⟩
    exact .inr (.inl ⟨rfl, rfl, _, hnegated, by decide, by decide⟩)

end Engine

end ProximitySearch
