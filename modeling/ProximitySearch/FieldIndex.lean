import ProximitySearch.Cursor.List
import ProximitySearch.Hit

/-!
# The index in memory

An index holds one value for each key. A snapshot is its entries at a moment; later writes do not reach it.
-/

namespace ProximitySearch

/-- An index under construction. -/
structure FieldIndex where
  entries : Entries
deriving DecidableEq

namespace FieldIndex

/-- The index without entries. -/
def empty : FieldIndex := ⟨∅⟩

instance : EmptyCollection FieldIndex := ⟨empty⟩
instance : Inhabited FieldIndex := ⟨empty⟩

/-- The index with a value written at a key. -/
def insert (index : FieldIndex) (key : Key) (value : Bytes) : FieldIndex :=
  ⟨index.entries.insert key value⟩

/-- The index with an entry that says that a document holds a value in a field. -/
def insertFieldIndex (index : FieldIndex) (row field value : String) (id : DocumentId) : FieldIndex :=
  index.insert
    ⟨Utf8.encode row, Utf8.encode (fieldIndexFamily field), Utf8.encode (fieldIndexQualifier value id)⟩ []

/-- The family of term-frequency entries, unless a configuration names another. -/
def termFrequencyFamily : String := "tf"

/-- The index with the offsets of a term of a document. -/
def insertTermFrequency (index : FieldIndex) (row : String) (hit : Hit) (offsets : Bytes) : FieldIndex :=
  index.insert ⟨Utf8.encode row, Utf8.encode termFrequencyFamily, hit.bytes⟩ offsets

/-- The index without a key, and the value it held there. -/
def remove (index : FieldIndex) (key : Key) : FieldIndex × Option Bytes :=
  (⟨index.entries.erase key⟩, index.entries.get? key)

/-- Number of entries. -/
def size (index : FieldIndex) : Nat := index.entries.size

/-- Whether the index has no entries. -/
def isEmpty (index : FieldIndex) : Bool := index.entries.isEmpty

/-- The entries as they are now. -/
def snapshot (index : FieldIndex) : Entries := index.entries

end FieldIndex

end ProximitySearch
