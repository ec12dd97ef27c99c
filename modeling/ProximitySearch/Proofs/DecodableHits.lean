import ProximitySearch.Proofs.Frequencies
import ProximitySearch.Proofs.QueryFields
import ProximitySearch.Proofs.QueryOrder

/-!
# Hits that can be decoded

A hit joins four components, and is read back by splitting it at every separator. So it is read back as what it was
made of just if neither its value nor its owner holds a separator (`Hit.decodes_ofParts_iff`). The fields of a query
never do.

An evaluation of a query hits owners that are the document's or those of its parts, and the term frequencies of its
hits can be read unless the index has one at a hit that is not read back (`Engine.evaluate_hits_decode`). A query can
write a term of such a hit (`Engine.evaluate_hits_undecodable`).
-/

namespace ProximitySearch

open Proximity

/-! ## Hits -/

namespace Hit

theorem isOf_ofParts {id : DocumentId} (hdatatype : NulFree id.datatype) (hid : NulFree id.owner) {owner : String}
    (howner : isSameOrChildOwner owner id.owner = true) (value field : String) :
    (ofParts ⟨id.datatype, owner⟩ value field).IsOf id := by
  have hparts : Composite.components (ofParts ⟨id.datatype, owner⟩ value field).name =
      id.datatype :: Composite.components (Composite.join owner (pairName value field)) :=
    Composite.components_join hdatatype _
  refine ⟨by rw [Hit.datatype, part, hparts]; rfl, ?_⟩
  rw [Hit.owner, part, hparts]
  rcases isSameOrChildOwner_iff.mp howner with rfl | ⟨rest, rfl⟩
  · rw [Composite.components_join hid]
    exact .inl rfl
  · -- the first component of the owner still starts with the uid and the dot
    have hne : Composite.separator ≠ '.' := by decide
    have hdot : NulFree (id.owner ++ ".") := by simpa [NulFree, hne] using hid
    obtain ⟨first, others, -, hsplit⟩ :=
      Composite.components_append hdot (rest ++ Composite.separator.toString ++ pairName value field)
    rw [← String.append_assoc, ← String.append_assoc] at hsplit
    rw [Composite.join, hsplit]
    exact .inr ⟨first, rfl⟩

end Hit

/-! ## Owners of what is looked up -/

namespace NegatedLookup

/-- A lookup finds owners that are the document's or those of its parts, whatever the index holds. -/
theorem isSameOrChildOwner_of_document {σ : Type} {index : Source σ} {row : Bytes} {id : DocumentId}
    {negated : List Descriptor} {found : Document} (h : (document index row id negated).2 = .ok found)
    {field value owner : String} (hrecords : found.Records field value owner) :
    isSameOrChildOwner owner id.owner = true := by
  obtain ⟨s, hfetch, rfl⟩ := document_eq_ok_iff.mp h
  have hinv : ∀ f v o, (fetchAll index.bounded row id negated ⟨index.bounded.fresh, ∅, [], []⟩).1.found.Records f v o →
      isSameOrChildOwner o id.owner = true := by
    refine fetchAll_invariant
      (P := fun s => ∀ f v o, s.found.Records f v o → isSameOrChildOwner o id.owner = true) ?_ ?_
    · intro d _ field value _ s hs
      refine fetch_found_invariant
        (P := fun found => ∀ f v o, found.Records f v o → isSameOrChildOwner o id.owner = true) ?_ hs
      intro owner found hfree hown hfound f v o hrec
      rcases (records_put_attributeOf owner hfree).mp hrec with hrec | ⟨-, -, rfl⟩
      · exact hfound f v o hrec
      · exact hown
    · exact fun f v o hrec => absurd hrec (Document.not_records_empty f v o)
  rw [hfetch] at hinv
  exact hinv field value owner hrecords

end NegatedLookup

namespace Engine

theorem isSameOrChildOwner_of_pseudoDocument {e : Engine} {key : Key} {id : DocumentId} {field value owner : String}
    (hrecords : (e.pseudoDocument key id).Records field value owner) : isSameOrChildOwner owner id.owner = true := by
  unfold pseudoDocument at hrecords
  split at hrecords
  · exact absurd hrecords (Document.not_records_empty field value owner)
  · split at hrecords
    · next hfound => exact NegatedLookup.isSameOrChildOwner_of_document hfound hrecords
    · exact absurd hrecords (Document.not_records_empty field value owner)

theorem Holds.isSameOrChildOwner {e : Engine} {key : Key} {id : DocumentId} {document : Document}
    (howners : ∀ field value owner, document.Records field value owner → isSameOrChildOwner owner id.owner = true)
    {field value owner : String} (h : e.Holds key id document field value owner) :
    ProximitySearch.isSameOrChildOwner owner id.owner = true := by
  rcases h with hrec | ⟨-, rfl, -⟩ | ⟨-, hrec⟩
  · exact howners field value owner hrec
  · exact isSameOrChildOwner_iff.mpr (.inl rfl)
  · exact isSameOrChildOwner_of_pseudoDocument hrec

/-! ## Term frequencies -/

theorem readFrequencies_ok_iff {σ : Type} {index : Source σ} {s : σ} {l : List Entry} (hshows : index.Shows s l)
    {rounds : Nat} (hrounds : l.length ≤ rounds) :
    (∃ pairs, (readFrequencies index rounds s).2 = .ok pairs) ↔ ∀ e ∈ l, ∃ hit, Hit.parse e.1.qualifier = .ok hit := by
  constructor
  · intro hread
    induction rounds generalizing s l with
    | zero =>
      obtain rfl := List.length_eq_zero_iff.mp (Nat.le_zero.mp hrounds)
      simp
    | succ rounds ih =>
      cases l with
      | nil => simp
      | cons e l =>
        have htop : index.top s = some e := hshows.top
        obtain ⟨pairs, hpairs⟩ := hread
        rw [readFrequencies, htop] at hpairs
        dsimp only at hpairs
        split at hpairs
        · simp at hpairs
        · next hit hparse =>
          simp only [hshows.fault] at hpairs
          refine List.forall_mem_cons.mpr ⟨⟨hit, hparse⟩, ih hshows.next (Nat.le_of_succ_le_succ hrounds) ?_⟩
          cases hrest : (readFrequencies index rounds (index.next s).state).2 with
          | ok rest => exact ⟨rest, rfl⟩
          | error fault => simp [hrest, Except.map] at hpairs
  · intro hparse
    obtain ⟨last, pairs, hread, -⟩ := readFrequencies_spec hshows hparse hrounds
    exact ⟨pairs, by rw [hread]⟩

/-- Over a list the term frequencies of hits of a document can be read just if each hit at which the index has an
entry is read back. -/
theorem termFrequencies_ok_iff {e : Engine} {entries : Entries} (hsource : e.source = some (.list entries)) {key : Key}
    {id : DocumentId} (hkey : key.documentId = .ok id) {hits : SortedSet Hit} (hown : ∀ hit ∈ hits, hit.IsOf id) :
    (∃ frequencies, (e.termFrequencies key hits).outcome = .ok frequencies) ↔
      ∀ hit ∈ hits, entries.contains (e.frequencyKey key.row hit) = true → Hit.parse hit.bytes = .ok hit := by
  cases hne : hits.isEmpty with
  | true =>
    have hnil : hits.toList = [] := List.isEmpty_iff.mp hne
    have hnone (hit : Hit) : hit ∉ hits := by
      intro hhit
      rw [← SortedSet.mem_toList, hnil] at hhit
      simp at hhit
    have hfirst : hits.first? = none := by rw [SortedSet.first?, hnil]; rfl
    exact iff_of_true ⟨∅, by simp only [termFrequencies, hfirst]⟩ fun hit hhit => absurd hhit (hnone hit)
  | false =>
    have hcons : hits.toList ≠ [] := List.isEmpty_eq_false_iff.mp hne
    obtain ⟨first, hfirst⟩ : ∃ first, hits.first? = some first := ⟨_, List.head?_eq_some_head hcons⟩
    obtain ⟨last, hlast⟩ : ∃ last, hits.last? = some last := ⟨_, List.getLast?_eq_some_getLast hcons⟩
    obtain ⟨hfault, l, hshows, hlength, -, hmem⟩ := exists_scanned e key.row entries hfirst hlast
    have hforeign := foreignHit?_eq_none_iff.mpr hown
    have hread := readFrequencies_ok_iff hshows (Nat.le_succ_of_le hlength)
    have hentries : (∀ entry ∈ l, ∃ hit, Hit.parse entry.1.qualifier = .ok hit) ↔
        ∀ hit ∈ hits, entries.contains (e.frequencyKey key.row hit) = true → Hit.parse hit.bytes = .ok hit := by
      constructor
      · intro hall hit hhit hcontains
        obtain ⟨value, hvalue⟩ := SortedMap.contains_iff.mp hcontains
        obtain ⟨parsed, hparsed⟩ := hall _ ((hmem _).mpr ⟨hvalue, hit, hhit, rfl⟩)
        have hparsed : Hit.parse hit.bytes = .ok parsed := hparsed
        rwa [← Hit.bytes_inj.mp (Hit.parse_eq_ok_iff.mp hparsed).1] at hparsed
      · intro hall entry hentry
        obtain ⟨hlist, hit, hhit, hat⟩ := (hmem entry).mp hentry
        refine ⟨hit, ?_⟩
        rw [hat]
        exact hall hit hhit (SortedMap.contains_iff.mpr ⟨entry.2, hat ▸ hlist⟩)
    rw [← hentries, ← hread]
    simp only [termFrequencies, hfirst, hlast, hkey, hforeign, hsource]
    split
    · next fault hsome => exact absurd (hfault.symm.trans hsome) (by simp)
    · exact exists_map_ok_iff

/-! ## Hits of a query -/

/-- What the text of a query says of the functions: their space is a union, and their fields hold no separators. -/
theorem ofQuery_spec {text : String} {config : Config} {source : Option Stack} {e : Engine}
    (hquery : ofQuery text ∅ config source = .ok e) : e.source = source ∧ e.config = config ∧ e.space.Unions ∧
      ∀ d ∈ e.space.descriptors, ∀ field ∈ d.fields, NulFree field := by
  obtain ⟨t, space, hparse, -, hspace, rfl⟩ := ofQuery_eq_ok_iff.mp hquery
  obtain ⟨descriptors, rfl, -⟩ := Space.exists_calls_of_ofTree hspace
  exact ⟨rfl, rfl, Space.unions_ofDescriptors descriptors,
    fun d hd field hfield => (Space.isName_of_mem_fields hparse hspace hd hfield).nulFree⟩

theorem Holds.nulFree {e : Engine} {entries : Entries} (hsource : e.source = some (.list entries)) {key : Key}
    {id : DocumentId} (hkey : key.documentId = .ok id) (huid : NulFree id.owner) {document : Document}
    (howners : ∀ field value owner, document.Records field value owner → NulFree owner)
    (hvalues : ∀ d ∈ e.space.negated, ∀ value ∈ d.values, NulFree value)
    (hindex : e.config.aggregation = .event ∨ ∀ field value owner,
      entries.Finds key.row id field value owner → NulFree owner) {field value owner : String}
    (h : e.Holds key id document field value owner) : NulFree owner := by
  rcases h with hrec | ⟨-, rfl, -⟩ | ⟨htop, hrec⟩
  · exact howners field value owner hrec
  · exact huid
  · have hfree := hindex.resolve_left (by simp [htop])
    exact hfree field value owner (finds_of_pseudoDocument hsource hkey hvalues hrec).2

/-- The hits of a query over a list, of a document whose own attributes are at it and its parts. Each is decoded into
what it was made of just if neither its owner nor its value holds a separator, and their term frequencies can be read
unless the index has one at a hit that is not read back. All are read back if no value in the query holds a separator
and, where owners are looked up, none in the index does. -/
theorem evaluate_hits_decode {text : String} {config : Config} {entries : Entries} {e : Engine}
    (hquery : ofQuery text ∅ config (some (.list entries)) = .ok e) {key : Key} {id : DocumentId}
    (hkey : key.documentId = .ok id) (huid : NulFree id.owner) {document : Document} (hdoc : document.Readable)
    (howners : ∀ field value owner, document.Records field value owner →
      (owner = id.owner ∨ ∃ rest, owner = id.owner ++ "." ++ rest) ∧ NulFree owner) :
    ∃ hits, (e.evaluate key document).outcome = .ok hits ∧
      (∀ h, h ∈ hits ↔ Declares e.space.descriptors id.datatype (e.Holds key id document) h) ∧
      (∀ d ∈ e.space.descriptors, ∀ field ∈ d.fields, ∀ value owner,
        (Hit.ofParts ⟨id.datatype, owner⟩ value field).Decodes ⟨id.datatype, owner⟩ value field ↔
          NulFree owner ∧ NulFree value) ∧
      ((∃ frequencies, (e.termFrequencies key hits).outcome = .ok frequencies) ↔
        ∀ hit ∈ hits, entries.contains (e.frequencyKey key.row hit) = true → Hit.parse hit.bytes = .ok hit) ∧
      ((∀ d ∈ e.space.descriptors, ∀ value ∈ d.values, NulFree value) →
        (config.aggregation = .event ∨ ∀ field value owner,
          entries.Finds key.row id field value owner → NulFree owner) →
        (∀ hit ∈ hits, Hit.parse hit.bytes = .ok hit) ∧
          ∃ frequencies, (e.termFrequencies key hits).outcome = .ok frequencies) := by
  obtain ⟨hsource, hconfig, hunions, hfields⟩ := ofQuery_spec hquery
  have hdatatype : NulFree id.datatype := (DocumentId.parse_eq_ok_iff.mp hkey).1
  obtain ⟨hits, hok, hmem⟩ := exists_evaluate_declared hunions hfields hkey hdoc
  have hdecodes : ∀ d ∈ e.space.descriptors, ∀ field ∈ d.fields, ∀ value owner,
      (Hit.ofParts ⟨id.datatype, owner⟩ value field).Decodes ⟨id.datatype, owner⟩ value field ↔
        NulFree owner ∧ NulFree value :=
    fun d hd field hfield value owner =>
      Hit.decodes_ofParts_iff (show NulFree (DocumentId.mk id.datatype owner).datatype from hdatatype)
        (hfields d hd field hfield)
  have hown : ∀ hit ∈ hits, hit.IsOf id := by
    intro hit hhit
    obtain ⟨d, -, field, -, value, hvalue, owner, hname, hall⟩ := (hmem hit).mp hhit
    obtain rfl : hit = Hit.ofParts ⟨id.datatype, owner⟩ value field := Hit.eq_ofParts_iff.mpr hname
    have howner := (hall value hvalue).isSameOrChildOwner fun f v o hrec =>
      isSameOrChildOwner_iff.mpr (howners f v o hrec).1
    exact Hit.isOf_ofParts hdatatype huid howner value field
  have hfrequencies := termFrequencies_ok_iff hsource hkey hown
  refine ⟨hits, hok, hmem, hdecodes, hfrequencies, fun hvalues hindex => ?_⟩
  have hread : ∀ hit ∈ hits, Hit.parse hit.bytes = .ok hit := by
    intro hit hhit
    obtain ⟨d, hd, field, hfield, value, hvalue, owner, hname, hall⟩ := (hmem hit).mp hhit
    obtain rfl : hit = Hit.ofParts ⟨id.datatype, owner⟩ value field := Hit.eq_ofParts_iff.mpr hname
    have howner : NulFree owner := by
      refine (hall value hvalue).nulFree hsource hkey huid (fun f v o hrec => (howners f v o hrec).2)
        (fun d hd => hvalues d (Space.mem_negated.mp hd).1) (hindex.imp_left fun hevent => ?_)
      rw [hconfig, hevent]
    exact ((hdecodes d hd field hfield value owner).mpr ⟨howner, hvalues d hd value hvalue⟩).parse
  exact ⟨hread, hfrequencies.mpr fun hit hhit _ => hread hit hhit⟩

end Engine

/-! ## Phrases of one term -/

namespace Query.Tree

theorem isNegated_of_top {t : Tree} {id : Nat} {space name : String} {children others : List Nat}
    (hnode : t.node? id = some ⟨.function space name, some 0, children⟩)
    (htop : t.node? 0 = some ⟨.script, none, others⟩) : t.isNegated id = false := by
  have hne : 0 ≠ id := by
    rintro rfl
    simp [hnode] at htop
  have hscript : t.negatedAbove [id] 0 = false := by
    rw [negatedAbove, if_neg (by simpa using hne)]
    split
    · rfl
    · next h =>
      obtain rfl := Option.some.inj (htop.symm.trans h)
      rfl
  rw [isNegated, negatedAbove, if_neg List.not_mem_nil]
  split
  · rfl
  · next h =>
    obtain rfl := Option.some.inj (hnode.symm.trans h)
    exact hscript

end Query.Tree

namespace Engine

/-- The tree of a phrase of one term over one field. -/
def bodyPhrase (term : String) : Query.Tree := ⟨[
  ⟨.script, none, [1]⟩,
  ⟨.function "content" "phrase", some 0, [2, 3, 4]⟩,
  ⟨.identifier "BODY", some 1, []⟩,
  ⟨.identifier "termOffsetMap", some 1, []⟩,
  ⟨.literal (.string term), some 1, []⟩]⟩

/-- Its function. -/
def bodyTerm (term : String) : List Descriptor :=
  [⟨.phrase, false, .ofList ["BODY"], .ofList [term]⟩]

theorem ofQuery_bodyPhrase {text term : String} (hparse : Query.parse text = .ok (bodyPhrase term))
    (source : Option Stack) :
    ofQuery text ∅ .standard source = .ok (ofDescriptors (bodyTerm term) .standard source) := by
  have hspace : Space.ofTree .standard ∅ (bodyPhrase term) =
      .ok (.ofDescriptors [⟨.phrase, (bodyPhrase term).isNegated 1, .ofList ["BODY"], .ofList [term]⟩]) :=
    Space.ofTree_phrase rfl rfl rfl (by decide) rfl
  rw [Query.Tree.isNegated_of_top rfl rfl] at hspace
  exact ofQuery_eq_ok_iff.mpr ⟨_, _, hparse, rfl, hspace, rfl⟩

/-- A document of one value. -/
def bodyEvent (value : String) : Document :=
  (∅ : Document).put "BODY" (NegatedLookup.attributeOf [] ⟨"doc", "u"⟩ "BODY" value)

/-- An index with the frequency of the value's hit. -/
def bodyFrequency (value : String) : Stack :=
  .list ((∅ : FieldIndex).insertTermFrequency "" (bodyHit value) [7]).snapshot

theorem readable_bodyEvent (value : String) : (bodyEvent value).Readable :=
  Document.readable_empty.put ⟨_, NegatedLookup.documentId_attributeOf (show NulFree "doc" by decide) _ _ _⟩

theorem owner_of_records_bodyEvent {event field value owner : String}
    (h : (bodyEvent event).Records field value owner) :
    (owner = "u" ∨ ∃ rest, owner = "u" ++ "." ++ rest) ∧ NulFree owner := by
  rcases (NegatedLookup.records_put_attributeOf ⟨"doc", "u"⟩ (show NulFree "doc" by decide)).mp h with h | ⟨-, -, rfl⟩
  · exact absurd h (Document.not_records_empty field value owner)
  · exact ⟨.inl rfl, by decide⟩

/-- The hit of a term without separators is read back, and its frequency is read. -/
theorem evaluate_hits_decode_cat : ∃ e,
    ofQuery "content:phrase(BODY, termOffsetMap, 'cat')" ∅ .standard (some (bodyFrequency "cat")) = .ok e ∧
    eventKey.documentId = .ok ⟨"doc", "u"⟩ ∧ NulFree "u" ∧ (bodyEvent "cat").Readable ∧
    (∀ field value owner, (bodyEvent "cat").Records field value owner →
      (owner = "u" ∨ ∃ rest, owner = "u" ++ "." ++ rest) ∧ NulFree owner) ∧
    (e.evaluate eventKey (bodyEvent "cat")).outcome = .ok (.ofList [bodyHit "cat"]) ∧
    (bodyHit "cat").Decodes ⟨"doc", "u"⟩ "cat" "BODY" ∧
    ∃ frequencies, (e.termFrequencies eventKey (.ofList [bodyHit "cat"])).outcome = .ok frequencies := by
  have hparse : Query.parse "content:phrase(BODY, termOffsetMap, 'cat')" = .ok (bodyPhrase "cat") := by decide +kernel
  have hquery := ofQuery_bodyPhrase hparse (some (bodyFrequency "cat"))
  have huid : NulFree "u" := by decide
  have howners (field value owner : String) (h : (bodyEvent "cat").Records field value owner) :=
    owner_of_records_bodyEvent h
  obtain ⟨hits, hok, -, hdecodes, -, hfree⟩ :=
    evaluate_hits_decode hquery documentId_eventKey huid (readable_bodyEvent "cat") howners
  have hhits : ((ofDescriptors (bodyTerm "cat") .standard (some (bodyFrequency "cat"))).evaluate eventKey
      (bodyEvent "cat")).outcome = .ok (.ofList [bodyHit "cat"]) := by decide +kernel
  obtain rfl := Except.ok.inj (hok.symm.trans hhits)
  have hterms : ∀ d ∈ (Space.ofDescriptors (bodyTerm "cat")).descriptors, ∀ value ∈ d.values, NulFree value := by
    intro d hd
    obtain rfl := List.mem_singleton.mp (Space.mem_ofDescriptors.mp hd)
    simp only [SortedSet.mem_ofList]
    decide
  obtain ⟨-, hread⟩ := hfree hterms (.inl rfl)
  have hdecode := hdecodes _ (Space.mem_ofDescriptors.mpr (List.mem_singleton_self _)) "BODY" (by decide) "cat" "u"
  exact ⟨_, hquery, documentId_eventKey, huid, readable_bodyEvent "cat", howners, hhits, hdecode.mpr (by decide), hread⟩

/-- Of a term with a separator the hit has one component too many, and its frequency cannot be read. -/
theorem evaluate_hits_undecodable :
    ((ofDescriptors (bodyTerm "a\x00b") .standard (some (bodyFrequency "a\x00b"))).termFrequencies eventKey
      (.ofList [bodyHit "a\x00b"])).outcome = .error (.malformedKey (.hitParts 5)) ∧
    ¬∀ (text : String) (config : Config) (entries : Entries) (e : Engine),
      ofQuery text ∅ config (some (.list entries)) = .ok e → ∀ (key : Key) (id : DocumentId),
      key.documentId = .ok id → NulFree id.owner → ∀ document : Document, document.Readable →
      (∀ field value owner, document.Records field value owner →
        (owner = id.owner ∨ ∃ rest, owner = id.owner ++ "." ++ rest) ∧ NulFree owner) →
      ∀ hits, (e.evaluate key document).outcome = .ok hits → (∀ hit ∈ hits, Hit.parse hit.bytes = .ok hit) ∧
        ∃ frequencies, (e.termFrequencies key hits).outcome = .ok frequencies := by
  refine ⟨by decide +kernel, fun hall => ?_⟩
  have hparse : Query.parse "content:phrase(BODY, termOffsetMap, 'a\\0b')" = .ok (bodyPhrase "a\x00b") := by
    decide +kernel
  have hquery := ofQuery_bodyPhrase hparse (some (bodyFrequency "a\x00b"))
  have hhits : ((ofDescriptors (bodyTerm "a\x00b") .standard (some (bodyFrequency "a\x00b"))).evaluate eventKey
      (bodyEvent "a\x00b")).outcome = .ok (.ofList [bodyHit "a\x00b"]) := by decide +kernel
  obtain ⟨hread, -⟩ := hall _ _ _ _ hquery _ _ documentId_eventKey (by decide) _ (readable_bodyEvent "a\x00b")
    (fun _ _ _ => owner_of_records_bodyEvent) _ hhits
  have hfive : Hit.parse (bodyHit "a\x00b").bytes = .error (.hitParts 5) := by decide +kernel
  exact absurd (hfive.symm.trans (hread _ (by decide))) (by simp)

end Engine

end ProximitySearch
