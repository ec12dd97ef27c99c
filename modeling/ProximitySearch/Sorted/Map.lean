/-!
# Sorted maps

A finite map as the list of its bindings in strictly ascending key order. A write replaces the binding of an equal key.
-/

namespace ProximitySearch

/-- A finite map, held as its bindings in strictly ascending key order. -/
structure SortedMap (κ β : Type) [Ord κ] where
  toList : List (κ × β)
  ascending : toList.Pairwise fun a b => compare a.1 b.1 = .lt
deriving DecidableEq

namespace SortedMap

variable {κ β : Type} [Ord κ]

/-- The map without bindings. -/
def empty : SortedMap κ β := ⟨[], .nil⟩

instance : EmptyCollection (SortedMap κ β) := ⟨empty⟩
instance : Inhabited (SortedMap κ β) := ⟨empty⟩

/-- Number of bindings. -/
def size (m : SortedMap κ β) : Nat := m.toList.length

/-- Whether the map has no bindings. -/
def isEmpty (m : SortedMap κ β) : Bool := m.toList.isEmpty

/-- The keys in ascending order. -/
def keys (m : SortedMap κ β) : List κ := m.toList.map Prod.fst

/-- The value bound to `k`. -/
def get? (m : SortedMap κ β) (k : κ) : Option β :=
  (m.toList.find? fun b => compare k b.1 == .eq).map Prod.snd

/-- Whether `k` is bound. -/
def contains (m : SortedMap κ β) (k : κ) : Bool := (m.get? k).isSome

/-- The map without the binding of `k`. -/
def erase (m : SortedMap κ β) (k : κ) : SortedMap κ β :=
  ⟨m.toList.filter fun b => compare k b.1 != .eq, m.ascending.filter _⟩

/-! ## Writing -/

/-- Ascending bindings with `k` bound to `v`. -/
def insertAscending (k : κ) (v : β) : List (κ × β) → List (κ × β)
  | [] => [(k, v)]
  | b :: rest =>
    match compare k b.1 with
    | .lt => (k, v) :: b :: rest
    | .eq => (k, v) :: rest
    | .gt => b :: insertAscending k v rest

theorem mem_of_mem_insertAscending {k : κ} {v : β} {b : κ × β} {l : List (κ × β)}
    (h : b ∈ insertAscending k v l) : b = (k, v) ∨ b ∈ l := by
  induction l with
  | nil => simpa [insertAscending] using h
  | cons c rest ih =>
    unfold insertAscending at h
    split at h
    · simpa using h
    · rcases List.mem_cons.mp h with rfl | h <;> simp [*]
    · rcases List.mem_cons.mp h with rfl | h
      · simp
      · rcases ih h with rfl | h <;> simp [*]

variable [Std.TransOrd κ]

theorem ascending_insertAscending {k : κ} {v : β} {l : List (κ × β)}
    (h : l.Pairwise fun a b => compare a.1 b.1 = .lt) :
    (insertAscending k v l).Pairwise fun a b => compare a.1 b.1 = .lt := by
  induction l with
  | nil => simp [insertAscending]
  | cons b rest ih =>
    obtain ⟨hb, hrest⟩ := List.pairwise_cons.mp h
    unfold insertAscending
    split
    · next hkb =>
      refine List.pairwise_cons.mpr ⟨fun c hc => ?_, h⟩
      rcases List.mem_cons.mp hc with rfl | hc
      · exact hkb
      · exact Std.TransCmp.lt_trans hkb (hb c hc)
    · next hkb =>
      refine List.pairwise_cons.mpr ⟨fun c hc => ?_, hrest⟩
      exact Std.TransCmp.lt_of_eq_of_lt hkb (hb c hc)
    · next hkb =>
      refine List.pairwise_cons.mpr ⟨fun c hc => ?_, ih hrest⟩
      rcases mem_of_mem_insertAscending hc with rfl | hc
      · exact Std.OrientedCmp.lt_of_gt hkb
      · exact hb c hc

/-- The map with `k` bound to `v`. -/
def insert (m : SortedMap κ β) (k : κ) (v : β) : SortedMap κ β :=
  ⟨insertAscending k v m.toList, ascending_insertAscending m.ascending⟩

/-- The map of the bindings of `l`, a later one winning over an earlier one with the same key. -/
def ofList (l : List (κ × β)) : SortedMap κ β :=
  l.foldl (fun m b => m.insert b.1 b.2) empty

/-! ## Looking up -/

omit [Std.TransOrd κ] in
@[simp] theorem get?_empty (k : κ) : (∅ : SortedMap κ β).get? k = none := rfl

theorem find?_insertAscending {k k' : κ} {v : β} {l : List (κ × β)} (h : compare k' k ≠ .eq) :
    (insertAscending k v l).find? (fun b => compare k' b.1 == .eq) =
      l.find? fun b => compare k' b.1 == .eq := by
  induction l with
  | nil => simp [insertAscending, h]
  | cons b rest ih =>
    unfold insertAscending
    split
    · simp [List.find?_cons, h]
    · next hkb =>
      have hb : compare k' b.1 ≠ .eq := fun hb => h (Std.TransCmp.eq_trans hb (Std.OrientedCmp.eq_symm hkb))
      simp [h, hb]
    · simp [List.find?_cons, ih]

theorem find?_insertAscending_self {k : κ} {v : β} {l : List (κ × β)} :
    (insertAscending k v l).find? (fun b => compare k b.1 == .eq) = some (k, v) := by
  induction l with
  | nil => simp [insertAscending, Std.ReflCmp.compare_self]
  | cons b rest ih =>
    unfold insertAscending
    split
    · simp [Std.ReflCmp.compare_self]
    · simp [Std.ReflCmp.compare_self]
    · next hkb => simp [hkb, ih]

theorem get?_insert [Std.LawfulEqOrd κ] [DecidableEq κ] (m : SortedMap κ β) (k k' : κ) (v : β) :
    (m.insert k v).get? k' = if k' = k then some v else m.get? k' := by
  unfold get? insert
  split
  · next h => rw [h, find?_insertAscending_self, Option.map_some]
  · next h => rw [find?_insertAscending fun heq => h (Std.LawfulEqCmp.eq_of_compare heq)]

omit [Std.TransOrd κ] in
theorem get?_erase [Std.LawfulEqOrd κ] [DecidableEq κ] (m : SortedMap κ β) (k k' : κ) :
    (m.erase k).get? k' = if k' = k then none else m.get? k' := by
  unfold get? erase
  rw [List.find?_filter]
  split
  · next h => simp [h]
  · next h =>
    congr 2
    funext b
    by_cases hb : compare k' b.1 = .eq
    · obtain rfl : k' = b.1 := Std.LawfulEqCmp.eq_of_compare hb
      have hk : compare k b.1 ≠ .eq := fun hk => h (Std.LawfulEqCmp.eq_of_compare hk).symm
      simp [hk]
    · simp [hb]

omit [Std.TransOrd κ] in
theorem get?_eq_some_iff [Std.LawfulEqOrd κ] {m : SortedMap κ β} {k : κ} {v : β} :
    m.get? k = some v ↔ (k, v) ∈ m.toList := by
  have find (l : List (κ × β)) (h : l.Pairwise fun a b => compare a.1 b.1 = .lt) :
      (l.find? fun b => compare k b.1 == .eq).map Prod.snd = some v ↔ (k, v) ∈ l := by
    induction l with
    | nil => simp
    | cons b rest ih =>
      obtain ⟨hb, hrest⟩ := List.pairwise_cons.mp h
      by_cases heq : compare k b.1 = .eq
      · obtain rfl : k = b.1 := Std.LawfulEqCmp.eq_of_compare heq
        have hnot : (b.1, v) ∉ rest := by
          intro hmem
          have hlt := hb _ hmem
          simp at hlt
        simp [hnot, Prod.ext_iff, eq_comm]
      · have hne : (k, v) ≠ b := by
          intro hkv
          exact heq (by simp [← hkv])
        simp [heq, hne, ih hrest]
  exact find m.toList m.ascending

theorem get?_ofList [Std.LawfulEqOrd κ] [DecidableEq κ] {l : List (κ × β)}
    (h : l.Pairwise fun a b => a.1 ≠ b.1) {k : κ} {v : β} : (ofList l).get? k = some v ↔ (k, v) ∈ l := by
  have fold (m : SortedMap κ β) : (l.foldl (fun m b => m.insert b.1 b.2) m).get? k = some v ↔
      (k, v) ∈ l ∨ (∀ b ∈ l, b.1 ≠ k) ∧ m.get? k = some v := by
    induction l generalizing m with
    | nil => simp
    | cons b rest ih =>
      obtain ⟨hb, hrest⟩ := List.pairwise_cons.mp h
      rw [List.foldl_cons, ih hrest, get?_insert]
      by_cases hk : k = b.1
      · subst hk
        have hnot : (b.1, v) ∉ rest := fun hmem => hb _ hmem rfl
        have hother : ∀ c ∈ rest, c.1 ≠ b.1 := fun c hc => (hb c hc).symm
        have hself : (b.1, v) ∈ b :: rest ↔ b.2 = v := by
          simp [hnot, Prod.ext_iff, eq_comm]
        rw [hself, if_pos rfl, Option.some.injEq, or_iff_right hnot]
        refine ⟨fun h => .inl h.2, fun h => ⟨hother, h.resolve_right fun hall => ?_⟩⟩
        exact hall.1 b List.mem_cons_self rfl
      · have hne : (k, v) ≠ b := by
          intro hkv
          exact hk (by simp [← hkv])
        simp [hk, hne, Ne.symm hk]
  rw [ofList, fold]
  exact or_iff_left fun hnone => by simp [get?, empty] at hnone

/-! ## Loading at once -/

/-- The last of each run of neighbouring bindings with equal keys. -/
def keepLast : List (κ × β) → List (κ × β)
  | [] => []
  | [b] => [b]
  | b :: c :: rest =>
    if compare b.1 c.1 = .eq then keepLast (c :: rest) else b :: keepLast (c :: rest)

omit [Std.TransOrd κ] in
theorem mem_of_mem_keepLast {b : κ × β} {l : List (κ × β)} (h : b ∈ keepLast l) : b ∈ l := by
  fun_induction keepLast l with
  | case1 => exact h
  | case2 => exact h
  | case3 _ _ _ _ ih => exact List.mem_cons_of_mem _ (ih h)
  | case4 _ _ _ _ ih =>
    rcases List.mem_cons.mp h with rfl | h
    · simp
    · exact List.mem_cons_of_mem _ (ih h)

theorem isLE_total (a b : κ × β) : ((compare a.1 b.1).isLE || (compare b.1 a.1).isLE) = true := by
  have hswap : compare b.1 a.1 = (compare a.1 b.1).swap := Std.OrientedCmp.eq_swap
  rw [hswap]
  cases compare a.1 b.1 <;> rfl

theorem lt_of_mem_of_ne {b c : κ × β} {rest : List (κ × β)}
    (h : (b :: c :: rest).Pairwise fun a b => (compare a.1 b.1).isLE) (hne : compare b.1 c.1 ≠ .eq) :
    ∀ d ∈ c :: rest, compare b.1 d.1 = .lt := by
  obtain ⟨hb, hrest⟩ := List.pairwise_cons.mp h
  have hbc : compare b.1 c.1 = .lt := by
    have := hb c List.mem_cons_self
    cases hcmp : compare b.1 c.1 <;> simp_all
  intro d hd
  rcases List.mem_cons.mp hd with rfl | hd
  · exact hbc
  · exact Std.TransCmp.lt_of_lt_of_isLE hbc ((List.pairwise_cons.mp hrest).1 d hd)

theorem ascending_keepLast {l : List (κ × β)} (h : l.Pairwise fun a b => (compare a.1 b.1).isLE) :
    (keepLast l).Pairwise fun a b => compare a.1 b.1 = .lt := by
  fun_induction keepLast l with
  | case1 => exact .nil
  | case2 => simp
  | case3 _ _ _ _ ih => exact ih (List.pairwise_cons.mp h).2
  | case4 b c rest hbc ih =>
    refine List.pairwise_cons.mpr ⟨fun d hd => ?_, ih (List.pairwise_cons.mp h).2⟩
    exact lt_of_mem_of_ne h hbc d (mem_of_mem_keepLast hd)

/-- The map of the bindings of `l`, sorted once. The sort is stable, so of bindings with equal keys the last stays. -/
def load (l : List (κ × β)) : SortedMap κ β where
  toList := keepLast (l.mergeSort fun a b => (compare a.1 b.1).isLE)
  ascending := ascending_keepLast <|
    List.pairwise_mergeSort (fun _ _ _ => Std.TransCmp.isLE_trans) isLE_total l

end SortedMap

end ProximitySearch
