import Mathlib.Data.List.Induction
import ProximitySearch.Proofs.Names
import ProximitySearch.Proximity.Function

/-!
# Search spaces of descriptors

The space of a list of descriptors has the descriptors of the list as members, and its fields, pairs and
flag are the unions over them (`Space.unions_ofDescriptors`).
-/

namespace ProximitySearch.Proximity

namespace Descriptor

def Requires (d : Descriptor) (field value : String) : Prop :=
  field ∈ d.fields ∧ value ∈ d.values

theorem mem_pairs {d : Descriptor} {field pair : String} :
    pair ∈ d.pairs field ↔ ∃ value ∈ d.values, pair = pairName value field := by
  simp [pairs, SortedSet.mem_toList, eq_comm]

end Descriptor

namespace Space

/-- The fields, pairs and flag of a space are the unions over its descriptors. -/
structure Unions (s : Space) : Prop where
  fields : ∀ field, field ∈ s.fields ↔ ∃ d ∈ s.descriptors, field ∈ d.fields
  pairs : ∀ b, b ∈ s.pairs ↔
    ∃ d ∈ s.descriptors, ∃ field value, d.Requires field value ∧ b = Utf8.encode (value ++ "\x00" ++ field)
  hasNegated : s.hasNegated = s.descriptors.any Descriptor.negated

theorem unions_empty : Unions ∅ where
  fields field := by simp [show (∅ : Space).descriptors = [] from rfl, show (∅ : Space).fields = ∅ from rfl]
  pairs b := by simp [show (∅ : Space).descriptors = [] from rfl, show (∅ : Space).pairs = ∅ from rfl]
  hasNegated := rfl

theorem mem_descriptors_add {s : Space} {d d' : Descriptor} :
    d' ∈ (s.add d).descriptors ↔ d' ∈ s.descriptors ∨ d' = d := by
  unfold add
  split
  · next hmem =>
    refine ⟨.inl, ?_⟩
    rintro (h | rfl)
    · exact h
    · exact hmem
  · simp

theorem unions_add {s : Space} (h : s.Unions) (d : Descriptor) : (s.add d).Unions := by
  by_cases hmem : d ∈ s.descriptors
  · rwa [add, if_pos hmem]
  have hd : (s.add d).descriptors = s.descriptors ++ [d] := by rw [add, if_neg hmem]
  refine ⟨fun field => ?_, fun b => ?_, ?_⟩
  · rw [hd, add, if_neg hmem]
    simp only [SortedSet.mem_insertAll, SortedSet.mem_toList, h.fields, List.mem_append, List.mem_singleton]
    constructor
    · rintro (hf | ⟨d', hd', hf⟩)
      · exact ⟨d, .inr rfl, hf⟩
      · exact ⟨d', .inl hd', hf⟩
    · rintro ⟨d', hd' | rfl, hf⟩
      · exact .inr ⟨d', hd', hf⟩
      · exact .inl hf
  · rw [hd, add, if_neg hmem]
    simp only [SortedSet.mem_insertAll, List.mem_flatMap, List.mem_map, SortedSet.mem_toList, h.pairs,
      List.mem_append, List.mem_singleton, Descriptor.mem_pairs]
    constructor
    · rintro (⟨field, hf, _, ⟨value, hv, rfl⟩, rfl⟩ | ⟨d', hd', hreq⟩)
      · exact ⟨d, .inr rfl, field, value, ⟨hf, hv⟩, rfl⟩
      · exact ⟨d', .inl hd', hreq⟩
    · rintro ⟨d', hd' | rfl, field, value, hreq, rfl⟩
      · exact .inr ⟨d', hd', field, value, hreq, rfl⟩
      · exact .inl ⟨field, hreq.1, _, ⟨value, hreq.2, rfl⟩, rfl⟩
  · rw [hd, add, if_neg hmem]
    simp [h.hasNegated]

theorem mem_foldl_add {s : Space} {l : List Descriptor} {d : Descriptor} :
    d ∈ (l.foldl add s).descriptors ↔ d ∈ s.descriptors ∨ d ∈ l := by
  induction l generalizing s with
  | nil => simp
  | cons a l ih => rw [List.foldl_cons, ih, mem_descriptors_add, List.mem_cons, or_assoc]

@[simp] theorem mem_ofDescriptors {l : List Descriptor} {d : Descriptor} :
    d ∈ (ofDescriptors l).descriptors ↔ d ∈ l := by
  rw [ofDescriptors, mem_foldl_add]
  exact or_iff_right List.not_mem_nil

theorem descriptors_ofDescriptors (l : List Descriptor) : (ofDescriptors l).descriptors = l.eraseDups := by
  induction l using List.reverseRecOn with
  | nil => rfl
  | append_singleton l d ih =>
    have hadd : ofDescriptors (l ++ [d]) = (ofDescriptors l).add d := by
      rw [ofDescriptors, List.foldl_append]
      rfl
    rw [hadd, add, List.eraseDups_append, ← ih]
    by_cases hmem : d ∈ l
    · rw [if_pos (mem_ofDescriptors.mpr hmem)]
      simp [List.removeAll, hmem]
    · rw [if_neg fun h => hmem (mem_ofDescriptors.mp h)]
      simp [List.removeAll, hmem, List.eraseDups_cons]

theorem unions_ofDescriptors (l : List Descriptor) : (ofDescriptors l).Unions := by
  have hfold (s : Space) (h : s.Unions) : (l.foldl add s).Unions := by
    induction l generalizing s with
    | nil => exact h
    | cons a l ih => exact ih _ (unions_add h a)
  exact hfold _ unions_empty

theorem mem_negated {s : Space} {d : Descriptor} : d ∈ s.negated ↔ d ∈ s.descriptors ∧ d.negated = true :=
  List.mem_filter

theorem Unions.negated_eq_nil {s : Space} (h : s.Unions) (hnone : s.hasNegated = false) : s.negated = [] := by
  rw [h.hasNegated, List.any_eq_false] at hnone
  exact List.filter_eq_nil_iff.mpr hnone

end Space

end ProximitySearch.Proximity
