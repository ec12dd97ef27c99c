import ProximitySearch.Composite

/-!
# Keys

A key has a row, a family and a qualifier, and keys sort by these in turn. `followingKey` is the least key above all
that share a key's leading components.
-/

namespace ProximitySearch

/-- Key of an entry. -/
structure Key where
  row : Bytes
  family : Bytes
  qualifier : Bytes
deriving DecidableEq, Repr, Inhabited

namespace Key

/-! ## Order -/

instance : Ord Key where
  compare := compareLex (compareOn row) (compareLex (compareOn family) (compareOn qualifier))

instance : Std.TransOrd Key :=
  inferInstanceAs (Std.TransCmp (compareLex _ _))

instance : Std.LawfulEqOrd Key where
  eq_of_compare {a b} h := by
    obtain ⟨hr, h⟩ := Ordering.then_eq_eq.mp h
    obtain ⟨hf, hq⟩ := Ordering.then_eq_eq.mp h
    cases a
    cases b
    simp_all [compareOn]

/-! ## Neighbours -/

/-- How many leading components of a key count. -/
inductive Depth where
  | row
  | family
  | qualifier
deriving DecidableEq, Repr

/-- The key with its components below `depth` emptied: the least key that shares those kept. -/
def truncate (k : Key) : Depth → Key
  | .row => ⟨k.row, [], []⟩
  | .family => ⟨k.row, k.family, []⟩
  | .qualifier => k

/-- The least key above every key that shares this one's components up to `depth`. -/
def followingKey (k : Key) : Depth → Key
  | .row => ⟨k.row ++ [0], [], []⟩
  | .family => ⟨k.row, k.family ++ [0], []⟩
  | .qualifier => ⟨k.row, k.family, k.qualifier ++ [0]⟩

/-- The key at another qualifier. -/
def withQualifier (k : Key) (qualifier : Bytes) : Key :=
  { k with qualifier }

/-! ## Reading and showing -/

/-- The document that the key's family names. -/
def documentId (k : Key) : Except KeyFault DocumentId :=
  DocumentId.parse k.family

/-- The key as a message shows it. -/
def text (k : Key) : String :=
  s!"{Utf8.printable k.row} {Utf8.printable k.family}:{Utf8.printable k.qualifier}"

/-- Key of an attribute of a document: its document as the family, its field and term as the qualifier. -/
def ofAttribute (row : String) (id : DocumentId) (field value : String) : Key :=
  ⟨Utf8.encode row, id.family, Utf8.encode (Composite.join field value)⟩

end Key

end ProximitySearch
