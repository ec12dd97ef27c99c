import ProximitySearch.Cursor.Source

/-!
# Journals of seeks

A journaled source keeps a record of every seek made on it.
-/

namespace ProximitySearch

/-- Where a seek ended. -/
inductive SeekOutcome where
  | failed
  | exhausted
  | found (key : Key)
deriving DecidableEq, Repr

/-- A seek: what it asked for, and where it ended. -/
structure SeekRecord where
  range : KeyRange
  filter : FamilyFilter
  outcome : SeekOutcome
deriving DecidableEq, Repr

/-- State of a journaled source: the seeks made on it, in order. -/
structure JournalState (σ : Type) where
  below : σ
  seeks : List SeekRecord

namespace Source

variable {σ : Type}

/-- Outcome of a seek that left `reply` behind. -/
def seekOutcome (below : Source σ) (reply : Reply σ) : SeekOutcome :=
  match reply.fault, below.top reply.state with
  | some _, _ => .failed
  | none, none => .exhausted
  | none, some (key, _) => .found key

/-- A source with a journal. -/
def journaled (below : Source σ) : Source (JournalState σ) where
  fresh := ⟨below.fresh, []⟩
  top s := below.top s.below
  seek range filter s :=
    let reply := below.seek range filter s.below
    ⟨⟨reply.state, s.seeks ++ [⟨range, filter, seekOutcome below reply⟩]⟩, reply.fault⟩
  next s :=
    let reply := below.next s.below
    ⟨{ s with below := reply.state }, reply.fault⟩
  size := below.size

end Source

end ProximitySearch
