import ProximitySearch.FieldIndex

/-!
# Configuration

How negated functions are resolved, which family holds term frequencies, and how function calls are recognised.
-/

namespace ProximitySearch

/-- What a candidate document stands for. -/
inductive Aggregation where
  /-- An event: every term of a negated function is taken to be at the event itself. -/
  | event
  /-- A document with its parts: terms of negated functions are looked up in the field index. -/
  | topLevelDocument
deriving DecidableEq, Repr

/-- How function calls are recognised. -/
structure FunctionConfig where
  namespaceName : String
  offsetPlaceholder : String
deriving DecidableEq, Repr

/-- Settings of an engine. -/
structure Config where
  aggregation : Aggregation
  termFrequencyFamily : String
  functions : FunctionConfig
deriving DecidableEq, Repr

/-- Calls are in `content`, and the placeholder for an offset map is `termOffsetMap`. -/
def FunctionConfig.standard : FunctionConfig := ⟨"content", "termOffsetMap"⟩

namespace Config

/-- Events, with term frequencies in the usual family. -/
def standard : Config := ⟨.event, FieldIndex.termFrequencyFamily, .standard⟩

instance : Inhabited Config := ⟨standard⟩

/-- Whether negated functions are looked up in the field index. -/
def isTopLevelDocument (c : Config) : Bool := c.aggregation == .topLevelDocument

theorem isTopLevelDocument_iff {c : Config} : c.isTopLevelDocument = true ↔ c.aggregation = .topLevelDocument :=
  beq_iff_eq

theorem isTopLevelDocument_eq_false_iff {c : Config} : c.isTopLevelDocument = false ↔ c.aggregation = .event := by
  cases h : c.aggregation <;> simp [isTopLevelDocument, h]

/-- Refuses an empty family, and then an empty namespace. -/
def validate (c : Config) : Except ConfigFault Unit :=
  if c.termFrequencyFamily.isEmpty then .error .emptyTermFrequencyFamily
  else if c.functions.namespaceName.isEmpty then .error .emptyNamespace
  else .ok ()

end Config

end ProximitySearch
