import ProximitySearch.Composite
import ProximitySearch.Sorted.Set

/-!
# Proximity functions

A function of a query asks for terms near one another in a field. Its descriptor keeps what a candidate must hold: in
one of the fields, all of the values.
-/

namespace ProximitySearch.Proximity

/-- Kinds of functions. -/
inductive Kind where
  | within
  | adjacent
  | phrase
deriving DecidableEq, Repr

namespace Kind

/-- Name of a kind in a query. -/
def name : Kind → String
  | .within => "within"
  | .adjacent => "adjacent"
  | .phrase => "phrase"

/-- The kind with a name. -/
def ofName? : String → Option Kind
  | "within" => some .within
  | "adjacent" => some .adjacent
  | "phrase" => some .phrase
  | _ => none

/-- Number of arguments before the terms: the field, the offset map and, for `within`, a distance. -/
def valueOffset : Kind → Nat
  | .within => 3
  | .adjacent | .phrase => 2

end Kind

/-- What a function asks for. -/
structure Descriptor where
  kind : Kind
  negated : Bool
  fields : SortedSet String
  values : SortedSet String
deriving DecidableEq

/-- The pairs that must be held together in a field. -/
def Descriptor.pairs (d : Descriptor) (field : String) : List String :=
  d.values.toList.map fun value => pairName value field

/-- What all functions of a query ask for. -/
structure Space where
  descriptors : List Descriptor
  fields : SortedSet String
  pairs : SortedSet Bytes
  hasNegated : Bool
deriving DecidableEq

namespace Space

/-- The space of a query without functions. -/
def empty : Space := ⟨[], ∅, ∅, false⟩

instance : EmptyCollection Space := ⟨empty⟩
instance : Inhabited Space := ⟨empty⟩

/-- The space with one more descriptor; one that it has already changes nothing. -/
def add (s : Space) (d : Descriptor) : Space :=
  if d ∈ s.descriptors then s
  else
    { descriptors := s.descriptors ++ [d]
      fields := s.fields.insertAll d.fields.toList
      pairs := s.pairs.insertAll (d.fields.toList.flatMap fun field => (d.pairs field).map Utf8.encode)
      hasNegated := s.hasNegated || d.negated }

/-- The space of descriptors. -/
def ofDescriptors (l : List Descriptor) : Space :=
  l.foldl add empty

/-- Descriptors of negated functions. -/
def negated (s : Space) : List Descriptor :=
  s.descriptors.filter Descriptor.negated

/-- Whether there are no functions. -/
def isEmpty (s : Space) : Bool := s.descriptors.isEmpty

end Space

end ProximitySearch.Proximity
