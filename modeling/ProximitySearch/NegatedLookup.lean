import ProximitySearch.Cursor.Bounded
import ProximitySearch.Document
import ProximitySearch.Proximity.Function

/-!
# Lookups for negated functions

A document is found without regard to the terms that must not be in it, so it does not hold them. They are looked up in
the field index, and what is found is put into a document of its own.

No term is looked up twice, and a term that is not there spares the rest of its function in that field, for the function
cannot be satisfied any more.
-/

namespace ProximitySearch

/-- State of lookups: the walk over the index, what was found, and which terms of which fields were looked up. -/
structure LookupState (σ : Type) where
  walk : σ
  found : Document
  fetched : List (String × String)
  missed : List (String × String)

namespace NegatedLookup

variable {σ : Type}

/-- The greatest code point. -/
def lastCodePoint : Char := Char.ofNat 0x10FFFF

/-- Index entries of a term for a document and its parts. Their owners are the uid, or extend it by a smaller character
than the last code point. -/
def lookupRange (row : Bytes) (id : DocumentId) (field value : String) : KeyRange :=
  let family := Utf8.encode (fieldIndexFamily field)
  let qualifier := fieldIndexQualifier value id
  .halfOpen ⟨row, family, Utf8.encode qualifier⟩ ⟨row, family, Utf8.encode (qualifier ++ lastCodePoint.toString)⟩

/-- The attribute that an index entry stands for. -/
def attributeOf (row : Bytes) (owner : DocumentId) (field value : String) : Attribute :=
  ⟨.text value, ⟨row, owner.family, Utf8.encode (Composite.join field value)⟩⟩

/-- Puts the entries from the top on into a document, and counts those of `id` and its parts. -/
def gather (index : Source σ) (row : Bytes) (id : DocumentId) (field value : String) :
    (rounds : Nat) → σ → Document → Nat → σ × Except SearchError (Document × Nat)
  | 0, s, found, count => (s, .ok (found, count))
  | rounds + 1, s, found, count =>
    match index.top s with
    | none => (s, .ok (found, count))
    | some (key, _) =>
      match parseFieldIndexQualifier key.qualifier with
      | .error fault => (s, .error (.malformedKey fault))
      | .ok owner =>
        let isOwn := isSameOrChildOwner owner.owner id.owner
        let moved := index.next s
        match moved.fault with
        | some fault => (moved.state, .error (.storage fault))
        | none =>
          gather index row id field value rounds moved.state
            (if isOwn then found.put field (attributeOf row owner field value) else found)
            (if isOwn then count + 1 else count)

/-- Looks a term up, and says whether it was found. -/
def fetch (index : Source σ) (row : Bytes) (id : DocumentId) (field value : String) (s : LookupState σ) :
    LookupState σ × Except SearchError Bool :=
  let sought := index.seek (lookupRange row id field value)
    (.only (Utf8.encode (fieldIndexFamily field))) s.walk
  match sought.fault with
  | some fault => ({ s with walk := sought.state }, .error (.storage fault))
  | none =>
    match gather index row id field value (index.size + 1) sought.state s.found 0 with
    | (walk, .error e) => ({ s with walk }, .error e)
    | (walk, .ok (found, count)) =>
      if count = 0 then ({ s with walk, found, missed := (field, value) :: s.missed }, .ok false)
      else ({ s with walk, found, fetched := (field, value) :: s.fetched }, .ok true)

/-- Looks up the terms of a function in a field, up to the first that is not there. -/
def fetchValues (index : Source σ) (row : Bytes) (id : DocumentId) (field : String) :
    (values : List String) → LookupState σ → LookupState σ × Except SearchError Unit
  | [], s => (s, .ok ())
  | value :: others, s =>
    if (field, value) ∈ s.fetched then fetchValues index row id field others s
    else
      match fetch index row id field value s with
      | (s, .error e) => (s, .error e)
      | (s, .ok false) => (s, .ok ())
      | (s, .ok true) => fetchValues index row id field others s

/-- Looks up the terms of a function in its fields. A field where one of them is known to be missing is left out. -/
def fetchFields (index : Source σ) (row : Bytes) (id : DocumentId) (values : List String) :
    (fields : List String) → LookupState σ → LookupState σ × Except SearchError Unit
  | [], s => (s, .ok ())
  | field :: others, s =>
    if values.any fun value => (field, value) ∈ s.missed then fetchFields index row id values others s
    else
      match fetchValues index row id field values s with
      | (s, .error e) => (s, .error e)
      | (s, .ok ()) => fetchFields index row id values others s

/-- Looks up the terms of functions. -/
def fetchAll (index : Source σ) (row : Bytes) (id : DocumentId) :
    (descriptors : List Proximity.Descriptor) → LookupState σ → LookupState σ × Except SearchError Unit
  | [], s => (s, .ok ())
  | d :: others, s =>
    match fetchFields index row id d.values.toList d.fields.toList s with
    | (s, .error e) => (s, .error e)
    | (s, .ok ()) => fetchAll index row id others s

/-- What the index holds of the terms of negated functions, and the walk at the end. The walk stays in each range it
looks in, whatever the source does. -/
def document (index : Source σ) (row : Bytes) (id : DocumentId) (negated : List Proximity.Descriptor) :
    BoundedState σ × Except SearchError Document :=
  let (s, outcome) := fetchAll index.bounded row id negated ⟨index.bounded.fresh, ∅, [], []⟩
  (s.walk, outcome.map fun _ => s.found)

end NegatedLookup

end ProximitySearch
