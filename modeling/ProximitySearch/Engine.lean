import ProximitySearch.Cursor
import ProximitySearch.Cursor.Journal
import ProximitySearch.NegatedLookup
import ProximitySearch.Occurrence
import ProximitySearch.Proximity.Call

/-!
# Engines

An engine answers, for the functions of one query, which pairs of a document satisfy them, and what the index holds on
those hits. Failures of the index during an evaluation do not fail it: they are logged, and the negated functions are
left out.
-/

namespace ProximitySearch

/-- The functions of a query, and what they are evaluated with. -/
structure Engine where
  space : Proximity.Space
  config : Config
  source : Option Stack
deriving DecidableEq

/-- Something that a caller may want to know of an evaluation that went on. -/
inductive Notice where
  | noSource (id : DocumentId)
  | lookupFailed (document : Key) (error : SearchError)
deriving DecidableEq, Repr

/-- A notice as it is logged. -/
def Notice.text : Notice → String
  | .noSource id =>
    "WARN no field index source configured; negated proximity functions for " ++
      s!"{id.datatype}/{id.owner} are skipped"
  | .lookupFailed document error =>
    s!"ERROR failed to build negated document for {document.text}: {error.message}"

/-- The outcome of a question to an engine, with the notices and the seeks on the way. -/
structure Answer (α : Type) where
  outcome : Except SearchError α
  notices : List Notice
  seeks : List SeekRecord

namespace Engine

/-- The engine of the functions in a query text. The text is parsed before the configuration is checked. -/
def ofQuery (text : String) (known : Proximity.FieldValues) (config : Config) (source : Option Stack) :
    Except SearchError Engine := do
  let tree ← Query.parse text
  config.validate.mapError .invalidConfig
  let space ← Proximity.Space.ofTree config.functions known tree
  return ⟨space, config, source⟩

/-! ## Hits -/

/-- Pairs of negated functions, each held by the event itself. -/
def negatedOccurrences (e : Engine) (id : DocumentId) : List Occurrence :=
  e.space.negated.flatMap fun d =>
    d.fields.toList.flatMap fun field =>
      ((d.pairs field).filter fun pair => Utf8.encode pair ∈ e.space.pairs).map fun pair =>
        ⟨field, pair, id.owner⟩

/-- What the index holds of the terms of negated functions; nothing, with a notice, if it cannot be asked. -/
def negatedDocument (e : Engine) (key : Key) (id : DocumentId) : Answer Document :=
  match e.source with
  | none => ⟨.ok ∅, [.noSource id], []⟩
  | some stack =>
    let (state, outcome) := NegatedLookup.document stack.source.journaled key.row id e.space.negated
    match outcome with
    | .ok found => ⟨.ok found, [], state.below.seeks⟩
    | .error error => ⟨.ok ∅, [.lookupFailed key error], state.below.seeks⟩

/-- Occurrences of documents in the fields of the functions, field by field. -/
def documentOccurrences (e : Engine) (documents : List Document) : Except SearchError (List Occurrence) :=
  List.flatten <$> e.space.fields.toList.mapM fun field =>
    List.flatten <$> documents.mapM fun d =>
      (Occurrence.ofAttributes field e.space.pairs (d.forField field)).mapError .malformedKey

/-- Hits of a document. -/
def evaluate (e : Engine) (key : Key) (document : Document) : Answer (SortedSet Hit) :=
  match key.documentId with
  | .error fault => ⟨.error (.malformedKey fault), [], []⟩
  | .ok id =>
    let isLookup := e.space.hasNegated && e.config.isTopLevelDocument
    let known := if e.space.hasNegated && !isLookup then e.negatedOccurrences id else []
    let negated := if isLookup then e.negatedDocument key id else ⟨.ok ∅, [], []⟩
    let outcome := do
      let found ← negated.outcome
      let held ← e.documentOccurrences [document, found]
      return Occurrence.hits (known ++ held) id.datatype e.space.descriptors
    ⟨outcome, negated.notices, negated.seeks⟩

/-- Hits of several documents, in order. -/
def evaluateAll (e : Engine) (documents : List (Key × Document)) : List (Except SearchError (SortedSet Hit)) :=
  documents.map fun (key, document) => (e.evaluate key document).outcome

/-! ## Term frequencies -/

/-- The first hit that is not one of a document or its parts. -/
def foreignHit? (hits : SortedSet Hit) (id : DocumentId) : Option Hit :=
  hits.toList.find? fun hit => hit.datatype != id.datatype || !isSameOrChildOwner hit.owner id.owner

/-- Reads hits and their values from the top of a walk on. -/
def readFrequencies {σ : Type} (index : Source σ) :
    (rounds : Nat) → σ → σ × Except SearchError (List (Hit × Bytes))
  | 0, s => (s, .ok [])
  | rounds + 1, s =>
    match index.top s with
    | none => (s, .ok [])
    | some (key, value) =>
      match Hit.parse key.qualifier with
      | .error fault => (s, .error (.malformedKey fault))
      | .ok hit =>
        let moved := index.next s
        match moved.fault with
        | some fault => (moved.state, .error (.storage fault))
        | none =>
          let (s, rest) := readFrequencies index rounds moved.state
          (s, rest.map ((hit, value) :: ·))

/-- The values that the index holds for hits of a document, from one skip scan over all of them. -/
def termFrequencies (e : Engine) (key : Key) (hits : SortedSet Hit) : Answer (SortedMap Hit Bytes) :=
  match hits.first?, hits.last? with
  | some first, some last =>
    match key.documentId with
    | .error fault => ⟨.error (.malformedKey fault), [], []⟩
    | .ok id =>
      match foreignHit? hits id, e.source with
      | some hit, _ =>
        ⟨.error (.invalidArgument (.foreignHit hit.text id.datatype id.owner)), [], []⟩
      | none, none => ⟨.error (.invalidConfig .noSource), [], []⟩
      | none, some stack =>
        let family := Utf8.encode e.config.termFrequencyFamily
        let candidates := SortedSet.ofList (hits.toList.map Hit.bytes)
        let index := stack.source.journaled.skipScan candidates family
        let range := KeyRange.closed ⟨key.row, family, first.bytes⟩ ⟨key.row, family, last.bytes⟩
        let sought := index.seek range ⟨[], true⟩ index.fresh
        match sought.fault with
        | some fault => ⟨.error (.storage fault), [], sought.state.below.seeks⟩
        | none =>
          let (state, frequencies) := readFrequencies index (index.size + 1) sought.state
          ⟨frequencies.map .ofList, [], state.below.seeks⟩
  | _, _ => ⟨.ok ∅, [], []⟩

end Engine

end ProximitySearch
