import ProximitySearch.Cursor.SkipScan

/-!
# The order of keys

Keys compare by row, family and qualifier in turn. Nothing lies between a byte string and the same string
with a zero at its end (`compare_append_zero`), so a following key cuts off exactly the keys that share the
leading components (`followingKey_cuts`). From this come the two facts that a skip scan rests on: a jump goes
strictly forward (`lt_jumpTarget`), and no candidate lies between the key it leaves and the key it goes to
(`not_mem_of_lt_jumpTarget`).
-/

namespace ProximitySearch

open Std

/-! ## Byte strings -/

theorem UInt8.compare_zero_ne_lt (b : UInt8) : compare b 0 ≠ .lt := by
  change compareOfLessAndEq b 0 ≠ .lt
  unfold compareOfLessAndEq
  rw [if_neg UInt8.not_lt_zero]
  split <;> decide

theorem compare_append_zero (m l : Bytes) : compare m (l ++ [0]) = .lt ↔ (compare m l).isLE := by
  induction l generalizing m with
  | nil =>
    cases m with
    | nil => decide
    | cons b rest =>
      have hb := UInt8.compare_zero_ne_lt b
      rw [List.nil_append, List.compare_cons_cons, List.compare_cons_nil]
      cases h : compare b 0 <;> simp_all
      cases rest <;> simp [List.compare_cons_nil]
  | cons a l ih =>
    cases m with
    | nil => simp [List.compare_nil_cons]
    | cons b rest =>
      rw [List.cons_append, List.compare_cons_cons, List.compare_cons_cons]
      cases compare b a <;> simp [ih]

/-! ## Components -/

namespace Key

theorem compare_eq (a b : Key) :
    compare a b =
      (compare a.row b.row).then ((compare a.family b.family).then (compare a.qualifier b.qualifier)) :=
  rfl

theorem compare_withQualifier (a b : Key) (q : Bytes) (hrow : a.row = b.row) (hfamily : a.family = b.family) :
    compare a (b.withQualifier q) = compare a.qualifier q := by
  simp [compare_eq, withQualifier, hrow, hfamily]

/-- The following key at a depth is above exactly the keys whose leading components are at most this key's. -/
theorem lt_followingKey (a k : Key) (depth : Depth) :
    compare a (k.followingKey depth) = .lt ↔ (compare (a.truncate depth) (k.truncate depth)).isLE := by
  have hnil (q : Bytes) : compare q [] ≠ .lt := by
    cases q <;> simp [List.compare_cons_nil]
  cases depth with
  | row =>
    simp only [compare_eq, followingKey, truncate, ReflCmp.compare_self, Ordering.then_eq]
    rw [← compare_append_zero]
    cases compare a.row (k.row ++ [0]) <;> simp
    cases hf : compare a.family [] <;> simp_all
  | family =>
    simp only [compare_eq, followingKey, truncate, ReflCmp.compare_self, Ordering.then_eq]
    cases compare a.row k.row <;> simp
    rw [← compare_append_zero]
    cases compare a.family (k.family ++ [0]) <;> simp_all
  | qualifier =>
    simp only [compare_eq, followingKey, truncate]
    cases compare a.row k.row <;> simp
    cases compare a.family k.family <;> simp [compare_append_zero]

theorem truncate_mono {a b : Key} (depth : Depth) (h : (compare a b).isLE) :
    (compare (a.truncate depth) (b.truncate depth)).isLE := by
  cases depth with
  | row =>
    simp only [compare_eq, truncate, ReflCmp.compare_self, Ordering.then_eq] at h ⊢
    cases hr : compare a.row b.row <;> simp_all
  | family =>
    simp only [compare_eq, truncate, ReflCmp.compare_self, Ordering.then_eq] at h ⊢
    cases hr : compare a.row b.row <;> cases hf : compare a.family b.family <;> simp_all
  | qualifier => exact h

theorem truncate_eq_of_between {low a : Key} {depth : Depth} (hlow : (compare low a).isLE)
    (hhigh : compare a (low.followingKey depth) = .lt) : a.truncate depth = low.truncate depth := by
  have hle := (lt_followingKey a low depth).mp hhigh
  have hge := truncate_mono depth hlow
  exact LawfulEqCmp.eq_of_compare (OrientedCmp.isLE_antisymm hle hge)

theorem lt_followingKey_self (k : Key) (depth : Depth) : compare k (k.followingKey depth) = .lt :=
  (lt_followingKey k k depth).mpr (by simp)

/-! ## Cuts -/

/-- The components of a key down to a depth. -/
def leading (k : Key) : Depth → List Bytes
  | .row => [k.row]
  | .family => [k.row, k.family]
  | .qualifier => [k.row, k.family, k.qualifier]

/-- A key is above all keys with some leading components, and every other such key is at least that. -/
def IsLeastAbove (bound : Key) (depth : Depth) (components : List Bytes) : Prop :=
  (∀ a : Key, a.leading depth = components → compare a bound = .lt) ∧
    ∀ b : Key, (∀ a : Key, a.leading depth = components → compare a b = .lt) → (compare bound b).isLE

/-- Keys without their lower components compare as lists of the others. -/
theorem compare_truncate (a b : Key) (depth : Depth) :
    compare (a.truncate depth) (b.truncate depth) = compare (a.leading depth) (b.leading depth) := by
  cases depth <;> simp [compare_eq, truncate, leading, List.compare_cons_cons]

theorem truncate_eq_iff {a b : Key} {depth : Depth} :
    a.truncate depth = b.truncate depth ↔ a.leading depth = b.leading depth := by
  obtain ⟨row, family, qualifier⟩ := a
  obtain ⟨row', family', qualifier'⟩ := b
  cases depth <;> simp [truncate, leading]

theorem truncate_isLE (k : Key) (depth : Depth) : (compare (k.truncate depth) k).isLE := by
  have hnil (q : Bytes) : (compare [] q).isLE := by
    cases q <;> simp [List.compare_nil_cons]
  cases depth with
  | row =>
    have hfamily := hnil k.family
    simp only [compare_eq, truncate, ReflCmp.compare_self, Ordering.then]
    cases hf : compare [] k.family <;> simp_all
  | family => simp [compare_eq, truncate, hnil]
  | qualifier => simp [truncate]

theorem truncate_truncate (k : Key) (depth : Depth) : (k.truncate depth).truncate depth = k.truncate depth := by
  cases depth <;> rfl

theorem followingKey_truncate (k : Key) (depth : Depth) :
    (k.truncate depth).followingKey depth = k.followingKey depth := by
  cases depth <;> rfl

theorem isLeastAbove_followingKey (k : Key) (depth : Depth) :
    (k.followingKey depth).IsLeastAbove depth (k.leading depth) := by
  refine ⟨fun a ha => (lt_followingKey a k depth).mpr ?_, fun b hb => ?_⟩
  · simp [truncate_eq_iff.mpr ha]
  · cases hcmp : compare (k.followingKey depth) b with
    | lt => rfl
    | eq => rfl
    | gt =>
      -- `b` lies between `k` and its following key, so it shares the components and would be below itself
      have habove := hb k rfl
      have hshared := truncate_eq_of_between (by simp [habove]) (OrientedCmp.lt_of_gt hcmp)
      have hself := hb b (truncate_eq_iff.mp hshared)
      simp at hself

theorem contains_exact_iff {k x : Key} {depth : Depth} :
    (KeyRange.exact k depth).contains x = true ↔ x.leading depth = k.leading depth := by
  have hends : (KeyRange.exact k depth).contains x = true ↔
      (compare (k.truncate depth) x).isLE ∧ compare x (k.followingKey depth) = .lt := by
    have hswap : compare (k.truncate depth) x = (compare x (k.truncate depth)).swap := OrientedCmp.eq_swap
    simp only [KeyRange.contains, KeyRange.exact, KeyRange.halfOpen, KeyRange.beforeStart, KeyRange.afterEnd, hswap]
    cases compare x (k.truncate depth) <;> cases compare x (k.followingKey depth) <;> simp
  rw [hends, ← truncate_eq_iff]
  constructor
  · rintro ⟨hlow, hhigh⟩
    rw [← followingKey_truncate] at hhigh
    rw [truncate_eq_of_between hlow hhigh, truncate_truncate]
  · intro h
    refine ⟨h ▸ truncate_isLE x depth, (lt_followingKey x k depth).mpr ?_⟩
    simp [h]

/-- Below a following key are the keys whose leading components are at most the key's; it is the least key above all
that share them, and the exact range has those alone. -/
theorem followingKey_cuts (k x : Key) (depth : Depth) :
    (compare x (k.followingKey depth) = .lt ↔ (compare (x.leading depth) (k.leading depth)).isLE) ∧
      (k.followingKey depth).IsLeastAbove depth (k.leading depth) ∧
      ((KeyRange.exact k depth).contains x = true ↔ x.leading depth = k.leading depth) := by
  refine ⟨?_, isLeastAbove_followingKey k depth, contains_exact_iff⟩
  rw [lt_followingKey, compare_truncate]

end Key

/-! ## Jumps -/

namespace SearchSpace

open SortedSet (successor?)

theorem lt_jumpTarget (space : SearchSpace) (key : Key) : compare key (space.jumpTarget key) = .lt := by
  unfold jumpTarget
  split
  · next candidate hnext =>
    have hlt := List.find?_some hnext
    rw [Key.compare_withQualifier _ _ _ rfl rfl]
    simpa using hlt
  · exact Key.lt_followingKey_self key .family

theorem not_mem_of_lt_jumpTarget {space : SearchSpace} {key a : Key} (hlow : compare key a = .lt)
    (hhigh : compare a (space.jumpTarget key) = .lt) : a.qualifier ∉ space := by
  have hfollow : compare a (key.followingKey .family) = .lt := by
    unfold jumpTarget at hhigh
    split at hhigh
    · next candidate _ =>
      refine TransCmp.lt_trans hhigh ((Key.lt_followingKey _ _ _).mpr ?_)
      simp [Key.truncate, Key.withQualifier]
    · exact hhigh
  have hsame := Key.truncate_eq_of_between (by simp [hlow]) hfollow
  obtain ⟨hrow, hfamily⟩ : key.row = a.row ∧ key.family = a.family := by
    simpa [Key.truncate, eq_comm] using hsame
  have hqualifier : compare key.qualifier a.qualifier = .lt := by
    simpa [Key.compare_eq, hrow, hfamily] using hlow
  intro hmem
  unfold jumpTarget at hhigh
  split at hhigh
  · next candidate hnext =>
    rw [Key.compare_withQualifier _ _ _ hrow.symm hfamily.symm] at hhigh
    -- the successor is the first member above the key, so a member above the key is not below it
    obtain ⟨-, before, after, hsplit, hbefore⟩ := List.find?_eq_some_iff_append.mp hnext
    have hsorted := space.ascending
    rw [hsplit, List.pairwise_append, List.pairwise_cons] at hsorted
    have hmem' : a.qualifier ∈ before ++ candidate :: after := hsplit ▸ hmem
    rcases List.mem_append.mp hmem' with hin | hin
    · simpa [hqualifier] using hbefore _ hin
    · rcases List.mem_cons.mp hin with heq | hin
      · simp [heq] at hhigh
      · have hgt := OrientedCmp.gt_of_lt (hsorted.2.1.1 _ hin)
        rw [hgt] at hhigh
        exact absurd hhigh (by decide)
  · next hnone =>
    simpa [hqualifier] using List.find?_eq_none.mp hnone _ hmem

end SearchSpace

end ProximitySearch
