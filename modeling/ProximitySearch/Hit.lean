import ProximitySearch.Key
import ProximitySearch.Sorted.Set

/-!
# Hits

A hit says that an owner holds a term in a field: `datatype\0owner\0value\0field`. This is also the qualifier of the
term's frequency entry, so hits sort by their octets, as qualifiers do.
-/

namespace ProximitySearch

/-- A found occurrence, as its composite name. -/
structure Hit where
  name : String
deriving DecidableEq, Repr

namespace Hit

/-- The hit of a pair `value\0field` at an owner. -/
def ofPair (id : DocumentId) (pair : String) : Hit :=
  ⟨Composite.join id.datatype (Composite.join id.owner pair)⟩

/-- The hit of its four components. -/
def ofParts (id : DocumentId) (value field : String) : Hit :=
  ofPair id (pairName value field)

/-- Octets of a hit, the qualifier of its frequency entry. -/
def bytes (hit : Hit) : Bytes := Utf8.encode hit.name

instance : Ord Hit where
  compare := compareOn bytes

instance : Std.TransOrd Hit :=
  inferInstanceAs (Std.TransCmp (compareOn _))

instance : Std.LawfulEqOrd Hit where
  eq_of_compare {a b} h := by
    have heq : a.bytes = b.bytes := Std.LawfulEqCmp.eq_of_compare h
    cases a
    cases b
    exact congrArg Hit.mk (Utf8.encode_inj.mp heq)

/-- Reads a hit from a qualifier, which must have four components. -/
def parse (qualifier : Bytes) : Except KeyFault Hit := do
  let name ← (Utf8.decode qualifier).mapError .hitEncoding
  let count := (Composite.components name).length
  if count = 4 then return ⟨name⟩ else throw (.hitParts count)

/-- A component of a hit, empty where there are too few. -/
def part (hit : Hit) (index : Nat) : String :=
  (Composite.components hit.name).getD index ""

/-- Datatype of the document. -/
def datatype (hit : Hit) : String := hit.part 0

/-- Uid of the document, or id of the part that holds the term. -/
def owner (hit : Hit) : String := hit.part 1

/-- The term. -/
def value (hit : Hit) : String := hit.part 2

/-- The field that holds it. -/
def field (hit : Hit) : String := hit.part 3

/-- The hit as a message shows it. -/
def text (hit : Hit) : String :=
  s!"{hit.datatype}/{hit.owner}:{hit.field}={hit.value}"

end Hit

end ProximitySearch
