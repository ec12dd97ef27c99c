import ProximitySearch.Document
import ProximitySearch.Hit
import ProximitySearch.Proximity.Function

/-!
# Occurrences

What is known to be held where, while a document is evaluated: pairs of a field, with their owners. A pair counts as
held in the fields it was recorded for, and its owners are those of all its records.
-/

namespace ProximitySearch

/-- A pair that an owner holds in a field. -/
structure Occurrence where
  field : String
  pair : String
  owner : String
deriving DecidableEq, Repr

namespace Occurrence

/-- Whether a pair is held in a field. -/
def holds (known : List Occurrence) (field pair : String) : Bool :=
  known.any fun o => o.field == field && o.pair == pair

/-- Owners of a pair. -/
def owners (known : List Occurrence) (pair : String) : List String :=
  known.filterMap fun o => if o.pair = pair then some o.owner else none

/-- Owners of all of some pairs; no pairs have no owner. -/
def commonOwners (known : List Occurrence) : (pairs : List String) → List String
  | [] => []
  | pair :: others => (owners known pair).filter fun owner => others.all fun other => owner ∈ owners known other

/-- Occurrences of a document in a field, as far as their pairs are asked for. -/
def ofAttributes (field : String) (asked : SortedSet Bytes) (attributes : List Attribute) :
    Except KeyFault (List Occurrence) :=
  let candidates := attributes.filter fun a => Utf8.encode (pairName a.value.term field) ∈ asked
  candidates.mapM fun a => do
    let id ← a.documentId
    return ⟨field, pairName a.value.term field, id.owner⟩

/-- Hits of a function in a field: if all its pairs are held there, its pairs at each of their common owners. -/
def hitsIn (known : List Occurrence) (datatype : String) (d : Proximity.Descriptor) (field : String) : List Hit :=
  let pairs := d.pairs field
  if pairs.all (holds known field) then
    (commonOwners known pairs).flatMap fun owner => pairs.map fun pair => Hit.ofPair ⟨datatype, owner⟩ pair
  else []

/-- Hits of functions in any of their fields. -/
def hits (known : List Occurrence) (datatype : String) (descriptors : List Proximity.Descriptor) :
    SortedSet Hit :=
  .ofList <| descriptors.flatMap fun d => d.fields.toList.flatMap fun field => hitsIn known datatype d field

end Occurrence

end ProximitySearch
