import ProximitySearch.Key.Range

/-!
# Sources of entries

A source walks over entries in key order. Its calls are pure: each gives the state it leaves behind and the fault
that stopped it, if any, so a history of calls is a fold over states. Layers such as a skip scan are functions from
sources to sources.
-/

namespace ProximitySearch

/-- An entry of an index. -/
abbrev Entry := Key × Bytes

/-- Which families a walk shows: those listed, or all but those listed. -/
structure FamilyFilter where
  families : List Bytes
  inclusive : Bool
deriving DecidableEq, Repr

namespace FamilyFilter

/-- Lets every family through. -/
def any : FamilyFilter := ⟨[], false⟩

/-- Lets one family through. -/
def only (family : Bytes) : FamilyFilter := ⟨[family], true⟩

/-- Whether entries of a family are shown. -/
def selects (filter : FamilyFilter) (family : Bytes) : Bool :=
  if filter.inclusive then filter.families.contains family else !filter.families.contains family

end FamilyFilter

/-- What a call leaves behind. -/
structure Reply (σ : Type) where
  state : σ
  fault : Option StorageFault

/-- A walk over sorted entries with states in `σ`.

`size` bounds how often the top can move strictly forward between two seeks; it is the number of entries for
every source here, and layers that search in a loop take it as the number of rounds. -/
structure Source (σ : Type) where
  /-- State of a new copy. -/
  fresh : σ
  /-- The entry the walk stands at. -/
  top : σ → Option Entry
  /-- Moves to the first entry in a range. -/
  seek : KeyRange → FamilyFilter → σ → Reply σ
  /-- Moves on by one entry. -/
  next : σ → Reply σ
  size : Nat

namespace Source

variable {σ : Type}

/-- Entries from the top on, for at most `count` moves. -/
def collectUpTo (source : Source σ) : Nat → σ → σ × Except StorageFault (List Entry)
  | 0, s => (s, .ok [])
  | count + 1, s =>
    match source.top s with
    | none => (s, .ok [])
    | some entry =>
      let moved := source.next s
      match moved.fault with
      | some fault => (moved.state, .error fault)
      | none =>
        let (last, rest) := source.collectUpTo count moved.state
        (last, rest.map (entry :: ·))

/-- Entries from the top on, and the state after the last. -/
def collect (source : Source σ) (s : σ) : σ × Except StorageFault (List Entry) :=
  source.collectUpTo (source.size + 1) s

end Source

end ProximitySearch
