import ProximitySearch.Key
import ProximitySearch.Sorted.Map

/-!
# Documents

A document holds, for each field, its attributes in the order they were put, each at most once.
-/

namespace ProximitySearch

/-- A value with a type: how it was written, and the form it is searched by. -/
structure TypedValue where
  typeName : String
  original : String
  normalized : String
deriving DecidableEq, Repr

/-- What an attribute holds. -/
inductive AttributeValue where
  | text (text : String)
  | typed (value : TypedValue)
deriving DecidableEq, Repr

/-- The term that a value is searched by. -/
def AttributeValue.term : AttributeValue → String
  | .text t => t
  | .typed t => t.normalized

/-- A value of a document, with the key of its metadata, whose family names the owner. -/
structure Attribute where
  value : AttributeValue
  metadata : Key
deriving DecidableEq, Repr

/-- The owner of an attribute. -/
def Attribute.documentId (a : Attribute) : Except KeyFault DocumentId :=
  a.metadata.documentId

/-- A document, by field. -/
structure Document where
  fields : SortedMap String (List Attribute)
deriving DecidableEq

namespace Document

/-- The document without fields. -/
def empty : Document := ⟨∅⟩

instance : EmptyCollection Document := ⟨empty⟩
instance : Inhabited Document := ⟨empty⟩

/-- Attributes of a field, in order. -/
def forField (d : Document) (field : String) : List Attribute :=
  (d.fields.get? field).getD []

/-- The document with an attribute put at the end of its field, unless the field has it already. -/
def put (d : Document) (field : String) (a : Attribute) : Document :=
  let held := d.forField field
  ⟨d.fields.insert field (if a ∈ held then held else held ++ [a])⟩

theorem forField_put (d : Document) (field other : String) (a : Attribute) :
    (d.put field a).forField other =
      if other = field then if a ∈ d.forField field then d.forField field else d.forField field ++ [a]
      else d.forField other := by
  unfold put
  rw [forField, SortedMap.get?_insert]
  split <;> rfl

/-- Whether the document has a field of this name. -/
def hasField (d : Document) (field : String) : Bool := d.fields.contains field

/-- Number of fields. -/
def size (d : Document) : Nat := d.fields.size

/-- Whether the document has no fields. -/
def isEmpty (d : Document) : Bool := d.fields.isEmpty

end Document

end ProximitySearch
