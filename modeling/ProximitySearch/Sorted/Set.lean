/-!
# Sorted sets

A finite set as the strictly ascending list of its members. Two sets with the same members are equal, so a
statement about a set may be read off its list.
-/

namespace ProximitySearch

/-- A finite set, held as its members in strictly ascending order. -/
structure SortedSet (α : Type) [Ord α] where
  toList : List α
  ascending : toList.Pairwise fun a b => compare a b = .lt
deriving DecidableEq

namespace SortedSet

variable {α : Type} [Ord α]

/-- The set without members. -/
def empty : SortedSet α := ⟨[], .nil⟩

instance : EmptyCollection (SortedSet α) := ⟨empty⟩
instance : Inhabited (SortedSet α) := ⟨empty⟩
instance : Membership α (SortedSet α) := ⟨fun s a => a ∈ s.toList⟩
instance [DecidableEq α] (a : α) (s : SortedSet α) : Decidable (a ∈ s) :=
  inferInstanceAs (Decidable (a ∈ s.toList))

/-- Number of members. -/
def size (s : SortedSet α) : Nat := s.toList.length

/-- Whether the set has no members. -/
def isEmpty (s : SortedSet α) : Bool := s.toList.isEmpty

/-- The least member. -/
def first? (s : SortedSet α) : Option α := s.toList.head?

/-- The greatest member. -/
def last? (s : SortedSet α) : Option α := s.toList.getLast?

/-- The least member above `a`, which need not be a member itself. -/
def successor? (s : SortedSet α) (a : α) : Option α :=
  s.toList.find? fun b => compare a b == .lt

/-! ## Insertion -/

/-- An ascending list with `a` at its place, unless it is there already. -/
def insertAscending (a : α) : List α → List α
  | [] => [a]
  | b :: rest =>
    match compare a b with
    | .lt => a :: b :: rest
    | .eq => b :: rest
    | .gt => b :: insertAscending a rest

theorem mem_of_mem_insertAscending {a b : α} {l : List α} (h : b ∈ insertAscending a l) :
    b = a ∨ b ∈ l := by
  induction l with
  | nil => simpa [insertAscending] using h
  | cons c rest ih =>
    unfold insertAscending at h
    split at h
    · simpa using h
    · exact .inr h
    · rcases List.mem_cons.mp h with rfl | h
      · simp
      · rcases ih h with rfl | h <;> simp [*]

variable [Std.TransOrd α]

theorem ascending_insertAscending {a : α} {l : List α} (h : l.Pairwise fun a b => compare a b = .lt) :
    (insertAscending a l).Pairwise fun a b => compare a b = .lt := by
  induction l with
  | nil => simp [insertAscending]
  | cons b rest ih =>
    obtain ⟨hb, hrest⟩ := List.pairwise_cons.mp h
    unfold insertAscending
    split
    · next hab =>
      refine List.pairwise_cons.mpr ⟨fun c hc => ?_, h⟩
      rcases List.mem_cons.mp hc with rfl | hc
      · exact hab
      · exact Std.TransCmp.lt_trans hab (hb c hc)
    · exact h
    · next hab =>
      refine List.pairwise_cons.mpr ⟨fun c hc => ?_, ih hrest⟩
      rcases mem_of_mem_insertAscending hc with rfl | hc
      · exact Std.OrientedCmp.lt_of_gt hab
      · exact hb c hc

/-- The set with `a` added. -/
def insert (s : SortedSet α) (a : α) : SortedSet α :=
  ⟨insertAscending a s.toList, ascending_insertAscending s.ascending⟩

/-- The set with all of `l` added. -/
def insertAll (s : SortedSet α) (l : List α) : SortedSet α :=
  l.foldl insert s

/-- The set of the members of `l`. -/
def ofList (l : List α) : SortedSet α :=
  insertAll empty l

/-- Members of either set. -/
def union (s t : SortedSet α) : SortedSet α :=
  s.insertAll t.toList

instance : Union (SortedSet α) := ⟨union⟩

/-! ## Members -/

omit [Std.TransOrd α] in
@[simp] theorem not_mem_empty (a : α) : a ∉ (∅ : SortedSet α) := List.not_mem_nil

omit [Std.TransOrd α] in
theorem mem_toList {s : SortedSet α} {a : α} : a ∈ s.toList ↔ a ∈ s := Iff.rfl

omit [Std.TransOrd α] in
theorem isEmpty_iff {s : SortedSet α} : s.isEmpty = true ↔ ∀ a, a ∉ s :=
  List.isEmpty_iff.trans List.eq_nil_iff_forall_not_mem

omit [Std.TransOrd α] in
theorem exists_mem_of_not_isEmpty {s : SortedSet α} (h : s.isEmpty = false) : ∃ a, a ∈ s :=
  List.exists_mem_of_ne_nil _ (List.isEmpty_eq_false_iff.mp h)

variable [Std.LawfulEqOrd α]

omit [Std.LawfulEqOrd α] in
theorem isLE_first? {s : SortedSet α} {a b : α} (ha : s.first? = some a) (hb : b ∈ s) : (compare a b).isLE := by
  obtain ⟨rest, hrest⟩ := List.head?_eq_some_iff.mp ha
  have hsorted := s.ascending
  have hmem : b ∈ s.toList := hb
  rw [hrest] at hsorted hmem
  rcases List.mem_cons.mp hmem with rfl | hmem
  · simp
  · simp [(List.pairwise_cons.mp hsorted).1 b hmem]

omit [Std.LawfulEqOrd α] in
theorem isLE_last? {s : SortedSet α} {a b : α} (hb : s.last? = some b) (ha : a ∈ s) : (compare a b).isLE := by
  obtain ⟨front, hfront⟩ := List.getLast?_eq_some_iff.mp hb
  have hsorted := s.ascending
  have hmem : a ∈ s.toList := ha
  rw [hfront] at hsorted hmem
  rcases List.mem_append.mp hmem with hmem | hmem
  · simp [(List.pairwise_append.mp hsorted).2.2 a hmem b (by simp)]
  · obtain rfl := List.mem_singleton.mp hmem
    simp

omit [Std.TransOrd α] in
theorem mem_insertAscending {a b : α} {l : List α} : b ∈ insertAscending a l ↔ b = a ∨ b ∈ l := by
  refine ⟨mem_of_mem_insertAscending, fun h => ?_⟩
  induction l with
  | nil => simpa [insertAscending] using h
  | cons c rest ih =>
    unfold insertAscending
    split
    · simpa using h
    · next hac =>
      obtain rfl := Std.LawfulEqCmp.eq_of_compare hac
      simpa using h
    · rcases h with rfl | h
      · exact List.mem_cons_of_mem _ (ih (.inl rfl))
      · rcases List.mem_cons.mp h with rfl | h
        · exact List.mem_cons_self
        · exact List.mem_cons_of_mem _ (ih (.inr h))

@[simp] theorem mem_insert {s : SortedSet α} {a b : α} : b ∈ s.insert a ↔ b = a ∨ b ∈ s :=
  mem_insertAscending

@[simp] theorem mem_insertAll {s : SortedSet α} {l : List α} {b : α} : b ∈ s.insertAll l ↔ b ∈ l ∨ b ∈ s := by
  unfold insertAll
  induction l generalizing s with
  | nil => simp
  | cons a rest ih => simp [ih, or_left_comm, or_assoc]

@[simp] theorem mem_ofList {l : List α} {b : α} : b ∈ ofList l ↔ b ∈ l := by
  rw [ofList, mem_insertAll]
  exact or_iff_left (not_mem_empty b)

@[simp] theorem mem_union {s t : SortedSet α} {b : α} : b ∈ s ∪ t ↔ b ∈ s ∨ b ∈ t :=
  mem_insertAll.trans or_comm

theorem ext {s t : SortedSet α} (h : ∀ a, a ∈ s ↔ a ∈ t) : s = t := by
  have nodup (u : SortedSet α) : u.toList.Nodup := by
    refine u.ascending.imp fun hlt heq => ?_
    subst heq
    simp [Std.ReflCmp.compare_self] at hlt
  have hperm : s.toList.Perm t.toList := (List.perm_ext_iff_of_nodup (nodup s) (nodup t)).mpr h
  have heq : s.toList = t.toList := by
    refine List.Perm.eq_of_pairwise (fun a b _ _ hab hba => ?_) s.ascending t.ascending hperm
    have := Std.OrientedCmp.gt_of_lt hba
    rw [hab] at this
    exact absurd this (by decide)
  cases s
  cases t
  simp_all

end SortedSet

end ProximitySearch
