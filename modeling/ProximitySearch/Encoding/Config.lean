import ProximitySearch.Config
import ProximitySearch.Json.Codec

/-!
# Configuration files

A configuration is read from JSON. Every setting may be left out and then has its standard value; the whole is
validated after it was read.
-/

namespace ProximitySearch

open Json Json.Codec

instance : Codec Aggregation where
  encode
    | .event => .ofText "event"
    | .topLevelDocument => .ofText "top_level_document"
  decode? v :=
    match plainVariant? v with
    | some "event" => some .event
    | some "top_level_document" => some .topLevelDocument
    | _ => none

instance : Codec FunctionConfig where
  encode c := .ofFields
    [("namespace", encode c.namespaceName), ("offset_placeholder", encode c.offsetPlaceholder)]
  decode? v := do
    let [namespaceName, placeholder] ← slots? ["namespace", "offset_placeholder"] v | none
    return ⟨← namespaceName.orElse FunctionConfig.standard.namespaceName,
      ← placeholder.orElse FunctionConfig.standard.offsetPlaceholder⟩

instance : Codec Config where
  encode c := .ofFields
    [("aggregation", encode c.aggregation), ("term_frequency_family", encode c.termFrequencyFamily),
      ("functions", encode c.functions)]
  decode? v := do
    let [aggregation, family, functions] ←
      slots? ["aggregation", "term_frequency_family", "functions"] v | none
    return ⟨← aggregation.orElse Config.standard.aggregation,
      ← family.orElse Config.standard.termFrequencyFamily,
      ← functions.orElse Config.standard.functions⟩

namespace Config

/-- The configuration that a text writes, if it can be used. -/
def ofJson (text : String) : Except SearchError Config :=
  match read? (α := Config) text with
  | none => .error (.json "the text is not a configuration")
  | some c => (c.validate.mapError .invalidConfig).map fun _ => c

/-- The configuration in a file with these contents. Contents that are no text count as a failure to read them. -/
def ofFile (contents : Option Bytes) : Except SearchError Config :=
  match contents with
  | none => .error (.storage (.io "no such file"))
  | some b =>
    match Utf8.decode b with
    | .error fault => .error (.storage (.io fault.message))
    | .ok text => ofJson text

end Config

end ProximitySearch
