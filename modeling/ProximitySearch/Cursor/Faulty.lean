import ProximitySearch.Cursor.Source

/-!
# Failing sources

A source that fails from a given seek or a given move on. A call that fails does not reach the source below, which
stays where it was.
-/

namespace ProximitySearch

/-- What a storage calls its failures. -/
inductive StorageFault.Kind where
  | io
  | index
deriving DecidableEq, Repr

/-- A fault of a kind. -/
def StorageFault.ofKind (kind : StorageFault.Kind) (text : String) : StorageFault :=
  match kind with
  | .io => .io text
  | .index => .index text

/-- Which calls fail, counted from one: the seek and the move named here, and all after them. -/
structure FaultPlan where
  kind : StorageFault.Kind
  firstSeek : Option Nat
  firstNext : Option Nat
deriving DecidableEq, Repr

/-- State of a failing source: how many calls were made on it. -/
structure FaultyState (σ : Type) where
  below : σ
  seeks : Nat
  nexts : Nat

/-- Whether the call with this number fails. -/
def FaultPlan.reached (first? : Option Nat) (number : Nat) : Bool :=
  first?.any (· ≤ number)

namespace Source

variable {σ : Type}

/-- A source with failures. A copy counts its calls from the start. -/
def faulty (below : Source σ) (plan : FaultPlan) : Source (FaultyState σ) where
  fresh := ⟨below.fresh, 0, 0⟩
  top s := below.top s.below
  seek range filter s :=
    let s := { s with seeks := s.seeks + 1 }
    if FaultPlan.reached plan.firstSeek s.seeks then ⟨s, some (.ofKind plan.kind "seek failed")⟩
    else
      let reply := below.seek range filter s.below
      ⟨{ s with below := reply.state }, reply.fault⟩
  next s :=
    let s := { s with nexts := s.nexts + 1 }
    if FaultPlan.reached plan.firstNext s.nexts then ⟨s, some (.ofKind plan.kind "next failed")⟩
    else
      let reply := below.next s.below
      ⟨{ s with below := reply.state }, reply.fault⟩
  size := below.size

end Source

end ProximitySearch
