import ProximitySearch.Cursor.Source

/-!
# Bounded walks

A bounded walk hides what its source shows outside the range of the last seek. It shows nothing before the first seek.
-/

namespace ProximitySearch

/-- State of a bounded walk. -/
structure BoundedState (σ : Type) where
  below : σ
  range : Option KeyRange

namespace Source

variable {σ : Type}

/-- The top of the source below, if it is in the range of the last seek. -/
def boundedTop (below : Source σ) (s : BoundedState σ) : Option Entry :=
  s.range.bind fun range => (below.top s.below).filter fun entry => range.contains entry.1

/-- Walk over a source that stays in the range sought. -/
def bounded (below : Source σ) : Source (BoundedState σ) where
  fresh := ⟨below.fresh, none⟩
  top := boundedTop below
  seek range filter s :=
    let reply := below.seek range filter s.below
    ⟨⟨reply.state, some range⟩, reply.fault⟩
  next s :=
    if (boundedTop below s).isNone then ⟨s, none⟩
    else
      let reply := below.next s.below
      ⟨{ s with below := reply.state }, reply.fault⟩
  size := below.size

end Source

end ProximitySearch
