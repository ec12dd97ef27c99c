import ProximitySearch.Proofs.Evaluation

/-!
# Queries of several functions

All functions of a query share what is known of a document, so the hits of an event over two lists of
functions need not be those over each list. A negated function lets its terms count as held by the event,
and so it may lend them to a function of the other list that lacks them (`Lends`). Nothing else is added, and
nothing is lost (`evaluate_append`).
-/

namespace ProximitySearch

open Proximity

/-- A negated one among some functions requires a value in a field. -/
def NegatedRequires (descriptors : List Descriptor) (field value : String) : Prop :=
  ∃ d ∈ descriptors, d.negated = true ∧ d.Requires field value

/-- What an owner holds while an event is evaluated: what the document records, and if the owner is the event
itself, what a negated function requires. -/
def EventHolds (descriptors : List Descriptor) (id : DocumentId) (document : Document)
    (field value owner : String) : Prop :=
  document.Records field value owner ∨ owner = id.owner ∧ NegatedRequires descriptors field value

/-- A hit `datatype\0uid\0value\0field` of the event itself on a function of `own` that lacks a term both in the
document and among the negated terms of `own`, and gets all that it lacks from negated functions of `other`. -/
def Lends (other own : List Descriptor) (id : DocumentId) (document : Document) (h : Hit) : Prop :=
  ∃ d ∈ own, ∃ field ∈ d.fields, ∃ value ∈ d.values,
    h.name = id.datatype ++ "\x00" ++ id.owner ++ "\x00" ++ value ++ "\x00" ++ field ∧
    (∀ w ∈ d.values, EventHolds own id document field w id.owner ∨ NegatedRequires other field w) ∧
    ∃ w ∈ d.values, ¬EventHolds own id document field w id.owner

/-- A function of `own` requires a value in a field that a negated function of `other` requires there. -/
def SharesTerm (other own : List Descriptor) : Prop :=
  ∃ d ∈ own, ∃ field value, d.Requires field value ∧ NegatedRequires other field value

theorem Lends.sharesTerm {other own : List Descriptor} {id : DocumentId} {document : Document} {h : Hit}
    (hlends : Lends other own id document h) : SharesTerm other own := by
  obtain ⟨d, hd, field, hfield, -, -, -, hall, w, hw, hlacks⟩ := hlends
  exact ⟨d, hd, field, w, ⟨hfield, hw⟩, (hall w hw).resolve_left hlacks⟩

section Lists

variable {all own other : List Descriptor} (hall : ∀ d, d ∈ all ↔ d ∈ own ∨ d ∈ other)
include hall

theorem negatedRequires_iff {field value : String} :
    NegatedRequires all field value ↔ NegatedRequires own field value ∨ NegatedRequires other field value := by
  constructor
  · intro h
    obtain ⟨d, hd, hrequires⟩ := h
    rcases (hall d).mp hd with hd | hd
    · exact .inl ⟨d, hd, hrequires⟩
    · exact .inr ⟨d, hd, hrequires⟩
  · intro h
    rcases h with ⟨d, hd, hrequires⟩ | ⟨d, hd, hrequires⟩
    · exact ⟨d, (hall d).mpr (.inl hd), hrequires⟩
    · exact ⟨d, (hall d).mpr (.inr hd), hrequires⟩

variable {id : DocumentId} {document : Document}

theorem eventHolds_iff {field value owner : String} : EventHolds all id document field value owner ↔
    EventHolds own id document field value owner ∨ owner = id.owner ∧ NegatedRequires other field value := by
  rw [EventHolds, negatedRequires_iff hall, and_or_left, ← or_assoc]
  rfl

/-- A function of `own` hits with the other functions beside it if it does so alone, or is lent what it lacks. -/
theorem declares_beside_iff {h : Hit} : Declares own id.datatype (EventHolds all id document) h ↔
    Declares own id.datatype (EventHolds own id document) h ∨ Lends other own id document h := by
  constructor
  · intro hdecl
    obtain ⟨d, hd, field, hfield, value, hvalue, owner, hname, hheld⟩ := hdecl
    by_cases halone : ∀ w ∈ d.values, EventHolds own id document field w owner
    · exact .inl ⟨d, hd, field, hfield, value, hvalue, owner, hname, halone⟩
    · apply Or.inr
      obtain ⟨w, hlacks⟩ := Classical.not_forall.mp halone
      obtain ⟨hw, hlacks⟩ := Classical.not_imp.mp hlacks
      obtain ⟨rfl, -⟩ := ((eventHolds_iff hall).mp (hheld w hw)).resolve_left hlacks
      refine ⟨d, hd, field, hfield, value, hvalue, hname, fun v hv => ?_, w, hw, hlacks⟩
      exact ((eventHolds_iff hall).mp (hheld v hv)).imp_right And.right
  · intro h
    rcases h with hdecl | ⟨d, hd, field, hfield, value, hvalue, hname, hheld, -⟩
    · exact hdecl.mono fun d _ field _ owner hheld w hw => (eventHolds_iff hall).mpr (.inl (hheld w hw))
    · refine ⟨d, hd, field, hfield, value, hvalue, id.owner, hname, fun w hw => ?_⟩
      exact (eventHolds_iff hall).mpr ((hheld w hw).imp_right fun hneg => ⟨rfl, hneg⟩)

theorem declares_iff_of_lists {datatype : String} {holds : String → String → String → Prop} {h : Hit} :
    Declares all datatype holds h ↔ Declares own datatype holds h ∨ Declares other datatype holds h := by
  simp only [Declares, hall, or_and_right, exists_or]

end Lists

namespace Engine

theorem exists_evaluate_event {descriptors : List Descriptor}
    (hfields : ∀ d ∈ descriptors, ∀ field ∈ d.fields, NulFree field) {config : Config}
    (hmode : config.aggregation = .event) (source : Option Stack) {key : Key} {id : DocumentId}
    (hkey : key.documentId = .ok id) {document : Document} (hdoc : document.Readable) :
    ∃ hits, ((ofDescriptors descriptors config source).evaluate key document).outcome = .ok hits ∧
      ∀ h, h ∈ hits ↔ Declares descriptors id.datatype (EventHolds descriptors id document) h := by
  have hmem (d : Descriptor) : d ∈ (ofDescriptors descriptors config source).space.descriptors ↔ d ∈ descriptors :=
    Space.mem_ofDescriptors
  obtain ⟨hits, hok, hdecl⟩ := exists_evaluate_declared (e := ofDescriptors descriptors config source)
    (Space.unions_ofDescriptors descriptors) (fun d hd => hfields d ((hmem d).mp hd)) hkey hdoc
  refine ⟨hits, hok, fun h => (hdecl h).trans ?_⟩
  have hevent : (ofDescriptors descriptors config source).config.aggregation = .event := hmode
  have hholds : (ofDescriptors descriptors config source).Holds key id document =
      EventHolds descriptors id document := by
    funext field value owner
    simp [holds_event hevent, EventHolds, NegatedRequires, Space.mem_negated, hmem, and_assoc]
  simp only [Declares, hmem, hholds]

/-- An event is hit by two lists of functions where it is hit by one of them, and where one lends the other
what it lacks. If no function shares a term and its field with a negated function of the other list, the hits
are those over the one list and those over the other. -/
theorem evaluate_append {first second : List Descriptor}
    (hfields : ∀ d ∈ first ++ second, ∀ field ∈ d.fields, NulFree field) {config : Config}
    (hmode : config.aggregation = .event) (source : Option Stack) {key : Key} {id : DocumentId}
    (hkey : key.documentId = .ok id) {document : Document} (hdoc : document.Readable) :
    ∃ hits hits₁ hits₂,
      ((ofDescriptors (first ++ second) config source).evaluate key document).outcome = .ok hits ∧
      ((ofDescriptors first config source).evaluate key document).outcome = .ok hits₁ ∧
      ((ofDescriptors second config source).evaluate key document).outcome = .ok hits₂ ∧
      (∀ h, h ∈ hits ↔ h ∈ hits₁ ∨ h ∈ hits₂ ∨ Lends second first id document h ∨ Lends first second id document h) ∧
      (¬SharesTerm second first → ¬SharesTerm first second → hits = hits₁ ∪ hits₂) := by
  have hfirst : ∀ d ∈ first, ∀ field ∈ d.fields, NulFree field :=
    fun d hd => hfields d (List.mem_append_left second hd)
  have hsecond : ∀ d ∈ second, ∀ field ∈ d.fields, NulFree field :=
    fun d hd => hfields d (List.mem_append_right first hd)
  obtain ⟨hits, hok, hmem⟩ := exists_evaluate_event hfields hmode source hkey hdoc
  obtain ⟨hits₁, hok₁, hmem₁⟩ := exists_evaluate_event hfirst hmode source hkey hdoc
  obtain ⟨hits₂, hok₂, hmem₂⟩ := exists_evaluate_event hsecond hmode source hkey hdoc
  have hleft (d : Descriptor) : d ∈ first ++ second ↔ d ∈ first ∨ d ∈ second := List.mem_append
  have hright (d : Descriptor) : d ∈ first ++ second ↔ d ∈ second ∨ d ∈ first := by rw [hleft, or_comm]
  have hiff (h : Hit) : h ∈ hits ↔
      h ∈ hits₁ ∨ h ∈ hits₂ ∨ Lends second first id document h ∨ Lends first second id document h := by
    rw [hmem, declares_iff_of_lists hleft, declares_beside_iff hleft, declares_beside_iff hright, ← hmem₁, ← hmem₂]
    rw [or_or_or_comm, or_assoc]
  refine ⟨hits, hits₁, hits₂, hok, hok₁, hok₂, hiff, fun hnone hnone' => SortedSet.ext fun h => ?_⟩
  rw [hiff, SortedSet.mem_union, or_iff_left (mt Lends.sharesTerm hnone' : ¬Lends first second id document h),
    or_iff_left (mt Lends.sharesTerm hnone : ¬Lends second first id document h)]

def catAndDog : List Descriptor := [⟨.within, false, .ofList ["BODY"], .ofList ["cat", "dog"]⟩]

def noDogFox : List Descriptor := [⟨.phrase, true, .ofList ["BODY"], .ofList ["dog", "fox"]⟩]

def bodyHit (value : String) : Hit := .ofParts ⟨"doc", "u"⟩ value "BODY"

theorem nulFree_catAndDog_noDogFox : ∀ d ∈ catAndDog ++ noDogFox, ∀ field ∈ d.fields, NulFree field := by
  simp only [catAndDog, noDogFox, List.cons_append, List.nil_append, List.forall_mem_cons, SortedSet.mem_ofList]
  decide

/-- The event holds one of two terms, and is hit at it just if a negated function lends the other. -/
theorem evaluate_append_lends :
    (∀ d ∈ catAndDog ++ noDogFox, ∀ field ∈ d.fields, NulFree field) ∧ Config.standard.aggregation = .event ∧
    eventKey.documentId = .ok ⟨"doc", "u"⟩ ∧ catEvent.Readable ∧
    ∃ hits, ((ofDescriptors (catAndDog ++ noDogFox) .standard none).evaluate eventKey catEvent).outcome = .ok hits ∧
      bodyHit "cat" ∈ hits := by
  have hmode : Config.standard.aggregation = .event := rfl
  obtain ⟨hits, _, _, hok, -, -, hiff, -⟩ := evaluate_append nulFree_catAndDog_noDogFox hmode none documentId_eventKey
    readable_catEvent
  have hcat : EventHolds catAndDog ⟨"doc", "u"⟩ catEvent "BODY" "cat" "u" :=
    .inl ⟨_, Document.mem_forField_put.mpr (.inr ⟨rfl, rfl⟩), rfl, _, documentId_eventKey, rfl⟩
  have hdog : ¬EventHolds catAndDog ⟨"doc", "u"⟩ catEvent "BODY" "dog" "u" := by
    intro hholds
    rcases hholds with ⟨a, ha, hterm, -⟩ | ⟨-, d, hd, hneg, -⟩
    · obtain ⟨-, rfl⟩ := (Document.mem_forField_put.mp ha).resolve_left (by simp)
      exact absurd hterm (by decide)
    · obtain rfl := List.mem_singleton.mp hd
      exact absurd hneg (by decide)
  have hlent : NegatedRequires noDogFox "BODY" "dog" := ⟨_, List.mem_singleton.mpr rfl, rfl, by decide, by decide⟩
  refine ⟨nulFree_catAndDog_noDogFox, hmode, documentId_eventKey, readable_catEvent, hits, hok, (hiff _).mpr ?_⟩
  refine .inr (.inr (.inl ⟨_, List.mem_singleton.mpr rfl, "BODY", by decide, "cat", by decide, rfl, fun w hw => ?_,
    "dog", by decide, hdog⟩))
  obtain rfl | rfl : w = "cat" ∨ w = "dog" := by simpa using SortedSet.mem_ofList.mp hw
  · exact .inl hcat
  · exact .inr hlent

/-- The hits over two lists need not be those over each of them. -/
theorem evaluate_append_ne_union : ¬∀ first second : List Descriptor,
    (∀ d ∈ first ++ second, ∀ field ∈ d.fields, NulFree field) → ∀ config : Config, config.aggregation = .event →
    ∀ key id, key.documentId = .ok id → ∀ document : Document, document.Readable → ∀ hits hits₁ hits₂,
    ((ofDescriptors (first ++ second) config none).evaluate key document).outcome = .ok hits →
    ((ofDescriptors first config none).evaluate key document).outcome = .ok hits₁ →
    ((ofDescriptors second config none).evaluate key document).outcome = .ok hits₂ → hits = hits₁ ∪ hits₂ := by
  intro hunion
  have hsame := hunion catAndDog noDogFox nulFree_catAndDog_noDogFox .standard rfl eventKey _ documentId_eventKey
    catEvent readable_catEvent (.ofList [bodyHit "cat", bodyHit "dog", bodyHit "fox"]) ∅
    (.ofList [bodyHit "dog", bodyHit "fox"])
    (by decide +kernel) (by decide +kernel) (by decide +kernel)
  exact absurd hsame (by decide)

end Engine

end ProximitySearch
