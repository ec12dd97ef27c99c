import ProximitySearch.Document
import ProximitySearch.Hit
import ProximitySearch.Json.Codec

/-!
# Encodings of keys, documents and hits
-/

namespace ProximitySearch

open Json Json.Codec

instance : Codec Key where
  encode k := .ofFields [("row", encode k.row), ("family", encode k.family), ("qualifier", encode k.qualifier)]
  decode? v := do
    let [row, family, qualifier] ← slots? ["row", "family", "qualifier"] v | none
    return ⟨← row.required, ← family.required, ← qualifier.required⟩

instance : Codec TypedValue where
  encode t := .ofFields
    [("type_name", encode t.typeName), ("original", encode t.original), ("normalized", encode t.normalized)]
  decode? v := do
    let [typeName, original, normalized] ← slots? ["type_name", "original", "normalized"] v | none
    return ⟨← typeName.required, ← original.required, ← normalized.required⟩

instance : Codec AttributeValue where
  encode
    | .text t => .ofVariant "Text" (encode t)
    | .typed t => .ofVariant "Typed" (encode t)
  decode? v :=
    match variant? v with
    | some ("Text", some content) => .text <$> decode? content
    | some ("Typed", some content) => .typed <$> decode? content
    | _ => none

instance : Codec Attribute where
  encode a := .ofFields [("value", encode a.value), ("metadata", encode a.metadata)]
  decode? v := do
    let [value, metadata] ← slots? ["value", "metadata"] v | none
    return ⟨← value.required, ← metadata.required⟩

instance : Codec Document where
  encode d := .ofFields [("fields", encode d.fields)]
  decode? v := do
    let [fields] ← slots? ["fields"] v | none
    return ⟨← fields.required⟩

/-- A hit is encoded as its name, and any text is taken for one. -/
instance : Codec Hit where
  encode hit := encode hit.name
  decode? v := Hit.mk <$> decode? v

end ProximitySearch
