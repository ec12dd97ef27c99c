import ProximitySearch.Key

/-!
# Key ranges

A range has a bound at either end, each absent, inclusive or exclusive. A key is in the range when it is neither
before its start nor after its end.
-/

namespace ProximitySearch

/-- One end of a range. -/
inductive Bound where
  | absent
  | inclusive (key : Key)
  | exclusive (key : Key)
deriving DecidableEq, Repr

/-- The bound at `key?`, if there is one. -/
def Bound.ofKey? (key? : Option Key) (isInclusive : Bool) : Bound :=
  match key? with
  | none => .absent
  | some key => if isInclusive then .inclusive key else .exclusive key

/-- A range of keys. -/
structure KeyRange where
  start : Bound
  stop : Bound
deriving DecidableEq, Repr

namespace KeyRange

/-- Every key. -/
def all : KeyRange := ⟨.absent, .absent⟩

/-- From `first`, up to but without `last`. -/
def halfOpen (first last : Key) : KeyRange := ⟨.inclusive first, .exclusive last⟩

/-- From `first` to `last`, both included. -/
def closed (first last : Key) : KeyRange := ⟨.inclusive first, .inclusive last⟩

/-- Keys that share the components of `key` up to `depth`. -/
def exact (key : Key) (depth : Key.Depth) : KeyRange :=
  halfOpen (key.truncate depth) (key.followingKey depth)

/-- The same end, from `first` on. -/
def withStart (range : KeyRange) (first : Key) : KeyRange :=
  { range with start := .inclusive first }

/-- Whether a key sorts before the range. -/
def beforeStart (range : KeyRange) (key : Key) : Bool :=
  match range.start with
  | .absent => false
  | .inclusive first => (compare key first).isLT
  | .exclusive first => (compare key first).isLE

/-- Whether a key sorts after the range. -/
def afterEnd (range : KeyRange) (key : Key) : Bool :=
  match range.stop with
  | .absent => false
  | .inclusive last => (compare key last).isGT
  | .exclusive last => (compare key last).isGE

/-- Whether a key is in the range. -/
def contains (range : KeyRange) (key : Key) : Bool :=
  !range.beforeStart key && !range.afterEnd key

end KeyRange

end ProximitySearch
