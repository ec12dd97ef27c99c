import ProximitySearch.Json.Codec
import ProximitySearch.Proximity.Function

/-!
# Encodings of proximity functions
-/

namespace ProximitySearch

open Json Json.Codec

/-- A search space is encoded as a structure around its members. -/
def encodeSearchSpace (s : SortedSet Bytes) : Value :=
  .ofFields [("members", encode s)]

/-- Reads a search space. -/
def decodeSearchSpace? (v : Value) : Option (SortedSet Bytes) := do
  let [members] ← slots? ["members"] v | none
  members.required

namespace Proximity

instance : Codec Kind where
  encode kind := .ofText kind.name
  decode? v := plainVariant? v >>= Kind.ofName?

instance : Codec Descriptor where
  encode d := .ofFields
    [("kind", encode d.kind), ("negated", encode d.negated), ("fields", encode d.fields),
      ("values", encode d.values)]
  decode? v := do
    let [kind, negated, fields, values] ← slots? ["kind", "negated", "fields", "values"] v | none
    return ⟨← kind.required, ← negated.required, ← fields.required, ← values.required⟩

/-- A space is taken as it is given; its parts need not agree with its descriptors. -/
instance : Codec Space where
  encode s := .ofFields
    [("descriptors", encode s.descriptors), ("fields", encode s.fields),
      ("search_space", encodeSearchSpace s.pairs), ("has_negated", encode s.hasNegated)]
  decode? v := do
    let [descriptors, fields, pairs, hasNegated] ←
      slots? ["descriptors", "fields", "search_space", "has_negated"] v | none
    let .given pairs := pairs | none
    return ⟨← descriptors.required, ← fields.required, ← decodeSearchSpace? pairs, ← hasNegated.required⟩

end Proximity

end ProximitySearch
