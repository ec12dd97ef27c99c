import ProximitySearch.Cursor.Source
import ProximitySearch.Sorted.Set

/-!
# Skip scans

A skip scan shows the entries of one family whose qualifier is in a search space. It does not visit the others one by
one: standing at a qualifier outside the space it seeks again, at the next candidate of the row or past the row's
family.
-/

namespace ProximitySearch

/-- Candidate qualifiers. -/
abbrev SearchSpace := SortedSet Bytes

/-- State of a skip scan. `reseeks` counts the seeks it made on its own since it was last told to seek. -/
structure SkipState (σ : Type) where
  below : σ
  range : KeyRange
  exhausted : Bool
  reseeks : Nat

/-- Where a scan goes from a key whose qualifier is no candidate. -/
def SearchSpace.jumpTarget (space : SearchSpace) (key : Key) : Key :=
  match SortedSet.successor? space key.qualifier with
  | some candidate => key.withQualifier candidate
  | none => key.followingKey .family

namespace Source

variable {σ : Type}

/-- Jumps until the source below stands at a candidate, past the range, or nowhere. -/
def settle (below : Source σ) (space : SearchSpace) (family : Bytes) :
    Nat → SkipState σ → Reply (SkipState σ)
  | 0, s => ⟨s, none⟩
  | rounds + 1, s =>
    match below.top s.below with
    | none => ⟨s, none⟩
    | some (key, _) =>
      if s.range.afterEnd key then ⟨{ s with exhausted := true }, none⟩
      else if key.qualifier ∈ space then ⟨s, none⟩
      else
        let target := space.jumpTarget key
        if s.range.afterEnd target then ⟨{ s with exhausted := true }, none⟩
        else
          let reply := below.seek (s.range.withStart target) (.only family) s.below
          let s := { s with below := reply.state, reseeks := s.reseeks + 1 }
          match reply.fault with
          | some fault => ⟨s, some fault⟩
          | none => settle below space family rounds s

/-- Skip scan over a source. It looks in its own family, whatever families a seek asks for. -/
def skipScan (below : Source σ) (space : SearchSpace) (family : Bytes) : Source (SkipState σ) where
  fresh := ⟨below.fresh, .all, true, 0⟩
  top s := if s.exhausted then none else below.top s.below
  seek range _ s :=
    if SortedSet.isEmpty space then ⟨⟨s.below, range, true, 0⟩, none⟩
    else
      let reply := below.seek range (.only family) s.below
      let s := ⟨reply.state, range, false, 0⟩
      match reply.fault with
      | some fault => ⟨s, some fault⟩
      | none => settle below space family (below.size + 1) s
  next s :=
    if s.exhausted || (below.top s.below).isNone then ⟨s, none⟩
    else
      let reply := below.next s.below
      let s := { s with below := reply.state }
      match reply.fault with
      | some fault => ⟨s, some fault⟩
      | none => settle below space family (below.size + 1) s
  size := below.size

end Source

end ProximitySearch
