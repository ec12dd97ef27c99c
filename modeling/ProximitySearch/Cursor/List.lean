import ProximitySearch.Cursor.Source
import ProximitySearch.Sorted.Map

/-!
# Walking a list of entries

`Source.ofEntries` shows the entries that are in the range of the last seek and pass its family filter.
`Source.overreading` is less obliging: it stops neither at the end of the range nor at a family, and stands at its first
entry before any seek.
-/

namespace ProximitySearch

/-- Sorted entries, one for each key. -/
abbrev Entries := SortedMap Key Bytes

/-- State of a walk over a list: the entries from the top on, and what the last seek asked for. -/
structure ListState where
  rest : List Entry
  range : KeyRange
  filter : FamilyFilter
deriving DecidableEq, Repr

/-- The entries from the first on that a walk may show. None is left once one is past the range. -/
def firstShown (range : KeyRange) (filter : FamilyFilter) : List Entry → List Entry
  | [] => []
  | entry :: rest =>
    if range.afterEnd entry.1 then []
    else if filter.selects entry.1.family then entry :: rest
    else firstShown range filter rest

namespace Source

/-- Walk over entries. -/
def ofEntries (entries : Entries) : Source ListState where
  fresh := ⟨[], .all, .any⟩
  top s := s.rest.head?
  seek range filter _ :=
    let fromStart := entries.toList.dropWhile fun entry => range.beforeStart entry.1
    ⟨⟨firstShown range filter fromStart, range, filter⟩, none⟩
  next s := ⟨{ s with rest := firstShown s.range s.filter s.rest.tail }, none⟩
  size := entries.size

/-- Walk over entries that ignores families and the end of the range. -/
def overreading (entries : Entries) : Source (List Entry) where
  fresh := entries.toList
  top := List.head?
  seek range _ _ := ⟨entries.toList.dropWhile fun entry => range.beforeStart entry.1, none⟩
  next rest := ⟨rest.tail, none⟩
  size := entries.size

end Source

end ProximitySearch
