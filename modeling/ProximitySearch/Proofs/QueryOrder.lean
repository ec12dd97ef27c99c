import ProximitySearch.Proofs.FailedLookup
import ProximitySearch.Proofs.LookupCaching
import ProximitySearch.Proofs.QueryUnion

/-!
# The order of functions

The hits of an event do not depend on the order of the functions. Those of a top-level document may, for the
lookups that are spared depend on it: a term whose function is given up is found only if another function came
before, and what is found counts for all functions.

A hit that is lost in another order is lost in one of two ways (`evaluate_perm`). Its lookup may fail in that order,
at an entry that the first order does not come to. Or it needs a term of which each negated function is given up
in the field (`OrderSensitive`). Neither happens if the document agrees with an index of texts.
-/

namespace ProximitySearch

open Proximity

/-- An owner holds all values of a function, in the document or in the index, but one of them in the index only, and
every negated function that requires that one in the field has another value there that the index does not hold. -/
def OrderSensitive (descriptors : List Descriptor) (entries : Entries) (row : Bytes) (id : DocumentId)
    (document : Document) (h : Hit) : Prop :=
  ∃ d ∈ descriptors, ∃ field ∈ d.fields, ∃ value ∈ d.values, ∃ owner,
    h.name = id.datatype ++ "\x00" ++ owner ++ "\x00" ++ value ++ "\x00" ++ field ∧
    (∀ w ∈ d.values, document.Records field w owner ∨
      NegatedRequires descriptors field w ∧ entries.Finds row id field w owner) ∧
    ∃ w ∈ d.values, ¬document.Records field w owner ∧ ∀ n ∈ descriptors, n.negated = true → n.Requires field w →
      ∃ missing ∈ n.values, ∀ o, ¬entries.Finds row id field missing o

namespace Engine

/-! ## What one order finds -/

section Found

variable {e : Engine} (hunions : e.space.Unions) {entries : Entries} (hsource : e.source = some (.list entries))
  {key : Key} {id : DocumentId} (hkey : key.documentId = .ok id)
  (hvalues : ∀ d ∈ e.space.negated, ∀ value ∈ d.values, NulFree value)
include hsource hkey

include hunions in
theorem exists_document_of_not_lookupFails (hmode : e.config.aggregation = .topLevelDocument)
    (hruns : ¬e.LookupFails key) :
    ∃ found, (NegatedLookup.document (Stack.list entries).source key.row id e.space.negated).2 = .ok found := by
  cases hneg : e.space.hasNegated with
  | false =>
    rw [hunions.negated_eq_nil hneg]
    exact ⟨∅, rfl⟩
  | true =>
    apply exists_document_of_no_failure
    intro hfailure
    exact hruns ⟨hneg, hmode, _, hsource, id, hkey, hfailure⟩

omit hsource in
theorem pseudoDocument_of_lookupFails (hfails : e.LookupFails key) : e.pseudoDocument key id = ∅ := by
  obtain ⟨-, -, stack, hstack, id', hkey', hruns⟩ := hfails
  obtain rfl := Except.ok.inj (hkey.symm.trans hkey')
  exact pseudoDocument_of_failure hstack hruns

include hvalues

theorem finds_of_pseudoDocument {field value owner : String}
    (hrecords : (e.pseudoDocument key id).Records field value owner) :
    NegatedLookup.RequiredBy e.space.negated field value ∧ entries.Finds key.row id field value owner := by
  cases hfound : (NegatedLookup.document (Stack.list entries).source key.row id e.space.negated).2 with
  | error fault =>
    have hnone : e.pseudoDocument key id = ∅ := by simp only [pseudoDocument, hsource, hfound]
    rw [hnone] at hrecords
    exact absurd hrecords (Document.not_records_empty field value owner)
  | ok found =>
    rw [pseudoDocument_eq hsource hfound] at hrecords
    obtain ⟨s, rfl, hs, -⟩ := NegatedLookup.exists_state_of_document key.row (Source.ofEntries_serves entries)
      (DocumentId.parse_eq_ok_iff.mp hkey).1 hvalues hfound
    obtain ⟨hmem, hfinds⟩ := (hs.found field value owner).mp hrecords
    exact ⟨hs.fetched field value hmem, hfinds⟩

include hunions in
/-- A lookup that does not fail leaves a value out only where it gives up all negated functions that require it. -/
theorem exists_missing_of_not_found (hmode : e.config.aggregation = .topLevelDocument) (hruns : ¬e.LookupFails key)
    {field value owner : String} (hfinds : entries.Finds key.row id field value owner)
    (hnot : ¬(e.pseudoDocument key id).Records field value owner) {n : Descriptor} (hn : n ∈ e.space.negated)
    (hreq : n.Requires field value) : ∃ missing ∈ n.values, ∀ o, ¬entries.Finds key.row id field missing o := by
  obtain ⟨found, hfound⟩ := exists_document_of_not_lookupFails hunions hsource hkey hmode hruns
  rw [pseudoDocument_eq hsource hfound] at hnot
  obtain ⟨s, rfl, hs, hres⟩ := NegatedLookup.exists_state_of_document key.row (Source.ofEntries_serves entries)
    (DocumentId.parse_eq_ok_iff.mp hkey).1 hvalues hfound
  rcases hres n hn field hreq.1 with ⟨missing, hmem, hmissed⟩ | hall
  · exact ⟨missing, hmem, hs.missed field missing hmissed⟩
  · exact absurd ((hs.found field value owner).mpr ⟨hall value hreq.2, hfinds⟩) hnot

end Found

/-! ## Two orders -/

section Orders

variable {first second : List Descriptor} (hperm : first.Perm second)
  (hvalues : ∀ d ∈ first, ∀ value ∈ d.values, NulFree value) {config : Config} {entries : Entries} {key : Key}
  {id : DocumentId} (hkey : key.documentId = .ok id) {document : Document}

theorem negatedRequires_of_requiredBy {descriptors : List Descriptor} {source : Option Stack} {field value : String}
    (h : NegatedLookup.RequiredBy (ofDescriptors descriptors config source).space.negated field value) :
    NegatedRequires descriptors field value := by
  obtain ⟨d, hd, hreq⟩ := h
  obtain ⟨hd, hneg⟩ := mem_negated_ofDescriptors.mp hd
  exact ⟨d, hd, hneg, hreq⟩

include hperm hvalues hkey

/-- A hit that another order loses is one of a top-level document. It is lost because the lookup of that order fails,
or because the hit depends on the order. -/
theorem orderSensitive_of_lost {h : Hit}
    (hhit : Declares (ofDescriptors first config (some (.list entries))).space.descriptors id.datatype
      ((ofDescriptors first config (some (.list entries))).Holds key id document) h)
    (hlost : ¬Declares (ofDescriptors second config (some (.list entries))).space.descriptors id.datatype
      ((ofDescriptors second config (some (.list entries))).Holds key id document) h) :
    config.aggregation = .topLevelDocument ∧ ¬(ofDescriptors first config (some (.list entries))).LookupFails key ∧
      ((ofDescriptors second config (some (.list entries))).LookupFails key ∨
        OrderSensitive first entries key.row id document h) := by
  obtain ⟨d, hd, field, hfield, value, hvalue, owner, hname, hall⟩ := hhit
  have hd : d ∈ first := Space.mem_ofDescriptors.mp hd
  -- a value that the second order does not find is held in the first
  obtain ⟨w, hw, hnot⟩ : ∃ w ∈ d.values,
      ¬(ofDescriptors second config (some (.list entries))).Holds key id document field w owner := by
    by_contra hnone
    push Not at hnone
    have hd' := Space.mem_ofDescriptors.mpr (hperm.mem_iff.mp hd)
    exact hlost ⟨d, hd', field, hfield, value, hvalue, owner, hname, hnone⟩
  have hfree : ∀ descriptors : List Descriptor, (∀ d ∈ descriptors, d ∈ first) → ∀ n ∈
      (ofDescriptors descriptors config (some (.list entries))).space.negated, ∀ value ∈ n.values, NulFree value :=
    fun _ hsub n hn => hvalues n (hsub n (mem_negated_ofDescriptors.mp hn).1)
  have hfirst := hfree first fun _ hd => hd
  have hsecond := hfree second fun _ hd => hperm.mem_iff.mpr hd
  cases hmode : config.aggregation with
  | event =>
    -- the records of an event and its negated functions are the same in any order
    have hheld := (holds_event hmode).mp (hall w hw)
    refine absurd ((holds_event hmode).mpr (hheld.imp_right (And.imp_right ?_))) hnot
    rintro ⟨n, hn, hreq⟩
    obtain ⟨hn, hneg⟩ := mem_negated_ofDescriptors.mp hn
    exact ⟨n, mem_negated_ofDescriptors.mpr ⟨hperm.mem_iff.mp hn, hneg⟩, hreq⟩
  | topLevelDocument =>
    have hheld := fun v hv => (holds_topLevelDocument hmode).mp (hall v hv)
    obtain ⟨hlacks, hlacks'⟩ := not_or.mp (mt (holds_topLevelDocument hmode).mpr hnot)
    have hfound := (hheld w hw).resolve_left hlacks
    have hfinds := (finds_of_pseudoDocument rfl hkey hfirst hfound).2
    refine ⟨rfl, fun hfails => ?_, or_iff_not_imp_left.mpr fun hruns => ?_⟩
    · rw [pseudoDocument_of_lookupFails hkey hfails] at hfound
      exact Document.not_records_empty field w owner hfound
    · refine ⟨d, hd, field, hfield, value, hvalue, owner, hname, fun v hv => ?_, w, hw, hlacks,
        fun n hn hneg hreq => ?_⟩
      · refine (hheld v hv).imp_right fun hrec => ?_
        obtain ⟨hreq, hfinds⟩ := finds_of_pseudoDocument rfl hkey hfirst hrec
        exact ⟨negatedRequires_of_requiredBy hreq, hfinds⟩
      · exact exists_missing_of_not_found (Space.unions_ofDescriptors second) rfl hkey hsecond hmode hruns hfinds
          hlacks' (mem_negated_ofDescriptors.mpr ⟨hperm.mem_iff.mp hn, hneg⟩) hreq

end Orders

theorem not_lookupFails_of_textQualifiers {e : Engine} {entries : Entries} (htext : entries.TextQualifiers)
    (hsource : e.source = some (.list entries)) (hvalues : ∀ d ∈ e.space.negated, ∀ value ∈ d.values, NulFree value)
    (key : Key) : ¬e.LookupFails key := by
  intro hfails
  obtain ⟨-, -, stack, hstack, id, hkey, hruns⟩ := hfails
  obtain rfl := Option.some.inj (hsource.symm.trans hstack)
  obtain ⟨valid, hascends⟩ := (Stack.list entries).exists_ascends
  obtain ⟨error, herror⟩ := (NegatedLookup.document_error_iff hascends.journaled _ _ _).mpr hruns
  obtain ⟨found, hfound, -⟩ := NegatedLookup.exists_document key.row (Source.ofEntries_serves entries)
    htext (DocumentId.parse_eq_ok_iff.mp hkey).1 hvalues
  rw [← NegatedLookup.document_projects (Source.journaled_projects (Stack.list entries).source)] at herror
  exact absurd (hfound.symm.trans herror) (by simp)

end Engine

/-! ## Hits that depend on the order -/

theorem OrderSensitive.of_perm {first second : List Descriptor} (hperm : first.Perm second) {entries : Entries}
    {row : Bytes} {id : DocumentId} {document : Document} {h : Hit}
    (hsens : OrderSensitive second entries row id document h) : OrderSensitive first entries row id document h := by
  obtain ⟨d, hd, field, hfield, value, hvalue, owner, hname, hheld, w, hw, hlacks, hgiven⟩ := hsens
  refine ⟨d, hperm.mem_iff.mpr hd, field, hfield, value, hvalue, owner, hname, fun v hv => ?_, w, hw, hlacks,
    fun n hn => hgiven n (hperm.mem_iff.mp hn)⟩
  refine (hheld v hv).imp_right (And.imp_left ?_)
  rintro ⟨n, hn, hreq⟩
  exact ⟨n, hperm.mem_iff.mpr hn, hreq⟩

theorem Engine.Agrees.not_orderSensitive {descriptors : List Descriptor} {entries : Entries} {row : Bytes}
    {id : DocumentId} {document full : Document} (hagrees : Engine.Agrees descriptors document full)
    (hfull : ∀ field value owner, full.Records field value owner ↔
      NegatedRequires descriptors field value ∧ entries.Finds row id field value owner) (h : Hit) :
    ¬OrderSensitive descriptors entries row id document h := by
  rintro ⟨d, hd, field, hfield, -, -, owner, -, hheld, w, hw, hlacks, hgiven⟩
  obtain ⟨hrequires, hfinds⟩ := (hheld w hw).resolve_left hlacks
  cases hneg : d.negated with
  | true =>
    -- the function itself is given up, at a value that the document holds
    obtain ⟨missing, hmissing, hnone⟩ := hgiven d hd hneg ⟨hfield, hw⟩
    rcases hheld missing hmissing with hrec | ⟨-, hfinds⟩
    · exact hnone owner ((hfull _ _ _).mp (hagrees.negated d hd hneg field missing ⟨hfield, hmissing⟩ owner hrec)).2
    · exact hnone owner hfinds
  | false =>
    have hrec := (hfull field w owner).mpr ⟨hrequires, hfinds⟩
    exact hlacks (hagrees.positive d hd hneg field w ⟨hfield, hw⟩ owner hrec)

namespace Engine

/-- The hits of functions in two orders, over a list. A key that cannot be read is the same error. The hits of an event
are the same. Of a top-level document, a hit that only one order has is lost to a failure of the lookup in the other
order, or depends on the order. Over an index of texts no lookup fails, and no hit is lost if the document agrees with
the index. -/
theorem evaluate_perm {first second : List Descriptor} (hperm : first.Perm second)
    (hfields : ∀ d ∈ first, ∀ field ∈ d.fields, NulFree field)
    (hvalues : ∀ d ∈ first, ∀ value ∈ d.values, NulFree value) (config : Config) (entries : Entries) (key : Key)
    {document : Document} (hdoc : document.Readable) :
    let e := ofDescriptors first config (some (.list entries))
    let e' := ofDescriptors second config (some (.list entries))
    (∀ fault, key.documentId = .error fault → (e.evaluate key document).outcome = (e'.evaluate key document).outcome) ∧
    ∀ id, key.documentId = .ok id → ∃ hits hits',
      (e.evaluate key document).outcome = .ok hits ∧ (e'.evaluate key document).outcome = .ok hits' ∧
      (config.aggregation = .event → hits = hits') ∧
      (∀ h ∈ hits, h ∉ hits' →
        ¬e.LookupFails key ∧ (e'.LookupFails key ∨ OrderSensitive first entries key.row id document h)) ∧
      (∀ h ∈ hits', h ∉ hits →
        ¬e'.LookupFails key ∧ (e.LookupFails key ∨ OrderSensitive first entries key.row id document h)) ∧
      (entries.TextQualifiers → ¬e.LookupFails key ∧ ¬e'.LookupFails key ∧
        ∀ full : Document, (∀ field value owner, full.Records field value owner ↔
          NegatedRequires first field value ∧ entries.Finds key.row id field value owner) →
        Agrees first document full → hits = hits') := by
  intro e e'
  have hvalues' : ∀ d ∈ second, ∀ value ∈ d.values, NulFree value := fun d hd => hvalues d (hperm.mem_iff.mpr hd)
  have hfields' : ∀ d ∈ second, ∀ field ∈ d.fields, NulFree field := fun d hd => hfields d (hperm.mem_iff.mpr hd)
  refine ⟨fun fault hkey => by simp only [evaluate, hkey], fun id hkey => ?_⟩
  obtain ⟨hits, hok, hmem⟩ := exists_evaluate_declared (show e.space.Unions from Space.unions_ofDescriptors first)
    (fun d hd => hfields d (Space.mem_ofDescriptors.mp hd)) hkey hdoc
  obtain ⟨hits', hok', hmem'⟩ := exists_evaluate_declared (show e'.space.Unions from Space.unions_ofDescriptors second)
    (fun d hd => hfields' d (Space.mem_ofDescriptors.mp hd)) hkey hdoc
  have hlost (h : Hit) (hh : h ∈ hits) (hnot : h ∉ hits') := orderSensitive_of_lost hperm hvalues hkey
    ((hmem h).mp hh) (mt (hmem' h).mpr hnot)
  have hlost' (h : Hit) (hh : h ∈ hits') (hnot : h ∉ hits) := orderSensitive_of_lost hperm.symm hvalues' hkey
    ((hmem' h).mp hh) (mt (hmem h).mpr hnot)
  refine ⟨hits, hits', hok, hok', fun hmode => SortedSet.ext fun h => ?_, fun h hh hnot => (hlost h hh hnot).2,
    fun h hh hnot => ?_, fun htext => ?_⟩
  · have hevent : config.aggregation ≠ .topLevelDocument := by simp [hmode]
    constructor
    · intro hh
      by_contra hnot
      exact hevent (hlost h hh hnot).1
    · intro hh
      by_contra hnot
      exact hevent (hlost' h hh hnot).1
  · obtain ⟨-, hruns, hreason⟩ := hlost' h hh hnot
    exact ⟨hruns, hreason.imp_right (OrderSensitive.of_perm hperm)⟩
  · have hruns : ¬e.LookupFails key := not_lookupFails_of_textQualifiers htext rfl
      (fun d hd => hvalues d (mem_negated_ofDescriptors.mp hd).1) key
    have hruns' : ¬e'.LookupFails key := not_lookupFails_of_textQualifiers htext rfl
      (fun d hd => hvalues' d (mem_negated_ofDescriptors.mp hd).1) key
    refine ⟨hruns, hruns', fun full hfull hagrees => SortedSet.ext fun h => ?_⟩
    have hnever := hagrees.not_orderSensitive hfull h
    constructor
    · intro hh
      by_contra hnot
      exact hnever ((hlost h hh hnot).2.2.resolve_left hruns')
    · intro hh
      by_contra hnot
      exact hnever (((hlost' h hh hnot).2.2.resolve_left hruns).of_perm hperm)

def notFox : Descriptor := ⟨.phrase, true, .ofList ["BODY"], .ofList ["fox"]⟩

def notDogWithFox : Descriptor := ⟨.phrase, true, .ofList ["BODY"], .ofList ["dog", "fox"]⟩

def someDog : Descriptor := ⟨.within, false, .ofList ["BODY"], .ofList ["dog"]⟩

/-- An index that holds one of the two terms. -/
def dogIndex : FieldIndex := (∅ : FieldIndex).insertFieldIndex "" "BODY" "dog" ⟨"doc", "u"⟩

def topLevelConfig : Config := { Config.standard with aggregation := .topLevelDocument }

theorem nulFree_dogAndFox : ∀ d ∈ [notDogWithFox, notFox, someDog],
    (∀ field ∈ d.fields, NulFree field) ∧ ∀ value ∈ d.values, NulFree value := by
  simp only [notDogWithFox, notFox, someDog, List.forall_mem_cons, SortedSet.mem_ofList]
  decide

theorem perm_dogAndFox : [notDogWithFox, notFox, someDog].Perm [notFox, notDogWithFox, someDog] := .swap _ _ _

theorem outcome_dogAndFox :
    ((ofDescriptors [notDogWithFox, notFox, someDog] topLevelConfig (some (.list dogIndex.snapshot))).evaluate eventKey
      catEvent).outcome = .ok (.ofList [bodyHit "dog"]) ∧
    ((ofDescriptors [notFox, notDogWithFox, someDog] topLevelConfig (some (.list dogIndex.snapshot))).evaluate eventKey
      catEvent).outcome = .ok ∅ := by
  decide +kernel

/-- The hit that is lost depends on the order. -/
theorem evaluate_perm_loses : catEvent.Readable ∧
    (∃ id, eventKey.documentId = .ok id ∧
      OrderSensitive [notDogWithFox, notFox, someDog] dogIndex.snapshot eventKey.row id catEvent (bodyHit "dog")) := by
  obtain ⟨-, hall⟩ := evaluate_perm perm_dogAndFox (fun d hd => (nulFree_dogAndFox d hd).1)
    (fun d hd => (nulFree_dogAndFox d hd).2) topLevelConfig dogIndex.snapshot eventKey readable_catEvent
  obtain ⟨hits, hits', hok, hok', -, hlost, -, htext⟩ := hall _ documentId_eventKey
  obtain rfl := Except.ok.inj (hok.symm.trans outcome_dogAndFox.1)
  obtain rfl := Except.ok.inj (hok'.symm.trans outcome_dogAndFox.2)
  obtain ⟨-, hruns', -⟩ := htext (Entries.textQualifiers_empty.insert _ _ _ _)
  have hsens := (hlost (bodyHit "dog") (by decide) (by decide)).2.resolve_left hruns'
  exact ⟨readable_catEvent, _, documentId_eventKey, hsens⟩

/-- The hits of a top-level document may depend on the order of the functions. -/
theorem evaluate_perm_ne : ¬∀ first second : List Descriptor, first.Perm second →
    (∀ d ∈ first, ∀ field ∈ d.fields, NulFree field) → (∀ d ∈ first, ∀ value ∈ d.values, NulFree value) →
    ∀ (config : Config) (entries : Entries) (key : Key) (document : Document), document.Readable →
      ((ofDescriptors first config (some (.list entries))).evaluate key document).outcome =
        ((ofDescriptors second config (some (.list entries))).evaluate key document).outcome := by
  intro hall
  have hsame := hall _ _ perm_dogAndFox (fun d hd => (nulFree_dogAndFox d hd).1)
    (fun d hd => (nulFree_dogAndFox d hd).2) topLevelConfig dogIndex.snapshot eventKey catEvent readable_catEvent
  rw [outcome_dogAndFox.1, outcome_dogAndFox.2] at hsame
  exact absurd hsame (by decide)

end Engine

end ProximitySearch
