import ProximitySearch.Cursor.Bounded
import ProximitySearch.Cursor.Faulty
import ProximitySearch.Cursor.List
import ProximitySearch.Cursor.SkipScan

/-!
# Cursors

A stack says what a walk is made of: entries at the bottom, and layers over them. A cursor is a stack with the state of
a walk over it. A copy of a cursor is the same stack at the start.
-/

namespace ProximitySearch

/-- Entries, and the layers that a walk sees them through. -/
inductive Stack where
  | list (entries : Entries)
  | overreading (entries : Entries)
  | skipScan (space : SearchSpace) (family : Bytes) (below : Stack)
  | bounded (below : Stack)
  | faulty (plan : FaultPlan) (below : Stack)
deriving DecidableEq

namespace Stack

/-- States of a walk over a stack. -/
def State : Stack → Type
  | .list _ => ListState
  | .overreading _ => List Entry
  | .skipScan _ _ below => SkipState below.State
  | .bounded below => BoundedState below.State
  | .faulty _ below => FaultyState below.State

/-- The walk over a stack. -/
def source : (stack : Stack) → Source stack.State
  | .list entries => Source.ofEntries entries
  | .overreading entries => Source.overreading entries
  | .skipScan space family below => below.source.skipScan space family
  | .bounded below => below.source.bounded
  | .faulty plan below => below.source.faulty plan

/-- Candidates of the outermost layer, if it is a skip scan. -/
def searchSpace? : Stack → Option SearchSpace
  | .skipScan space _ _ => some space
  | _ => none

/-- Jumps of the outermost layer since the last seek, if it is a skip scan. -/
def reseeks? : (stack : Stack) → stack.State → Option Nat
  | .skipScan _ _ _, s => some (SkipState.reseeks s)
  | _, _ => none

end Stack

/-- A walk over a stack. -/
structure Cursor where
  stack : Stack
  state : stack.State

namespace Cursor

/-- A walk that has not been told to seek. -/
def ofStack (stack : Stack) : Cursor := ⟨stack, stack.source.fresh⟩

/-- A new walk over the same stack. -/
def copy (c : Cursor) : Cursor := ofStack c.stack

/-- The entry the walk stands at. -/
def top (c : Cursor) : Option Entry := c.stack.source.top c.state

/-- Moves to the first entry in a range. -/
def seek (c : Cursor) (range : KeyRange) (filter : FamilyFilter) : Reply Cursor :=
  let reply := c.stack.source.seek range filter c.state
  ⟨⟨c.stack, reply.state⟩, reply.fault⟩

/-- Moves on by one entry. -/
def next (c : Cursor) : Reply Cursor :=
  let reply := c.stack.source.next c.state
  ⟨⟨c.stack, reply.state⟩, reply.fault⟩

/-- Entries from the top on. -/
def collect (c : Cursor) : Cursor × Except StorageFault (List Entry) :=
  let (state, entries) := c.stack.source.collect c.state
  (⟨c.stack, state⟩, entries)

/-- Jumps since the last seek, of a cursor whose outermost layer is a skip scan. -/
def reseeks? (c : Cursor) : Option Nat := c.stack.reseeks? c.state

end Cursor

end ProximitySearch
