import Mathlib.Data.List.Forall2
import ProximitySearch.Occurrence
import ProximitySearch.Proofs.Space

/-!
# Occurrences and hits

Occurrences are named if the pair of each is that of some value and its own field, and that field holds no
separator. Then the owners of a pair are those recorded for it in its one field, though the index is keyed
by the pair alone, and the hits of a function are its pairs at every owner that holds all of them in one
field (`mem_hits`).
-/

namespace ProximitySearch

open Proximity

/-! ## Reading several things that may fail -/

theorem exists_mapM_ok {α β ε : Type} {f : α → Except ε β} {l : List α} (h : ∀ a ∈ l, ∃ b, f a = .ok b) :
    ∃ bs, l.mapM f = .ok bs ∧ ∀ b, b ∈ bs ↔ ∃ a ∈ l, f a = .ok b := by
  induction l with
  | nil => exact ⟨[], rfl, by simp⟩
  | cons a l ih =>
    obtain ⟨b, hb⟩ := h a (by simp)
    obtain ⟨bs, hbs, hmem⟩ := ih fun a ha => h a (by simp [ha])
    refine ⟨b :: bs, ?_, fun b' => ?_⟩
    · rw [List.mapM_cons, hb, hbs]
      rfl
    · rw [List.mem_cons, hmem]
      constructor
      · rintro (rfl | ⟨a', ha', hb'⟩)
        · exact ⟨a, by simp, hb⟩
        · exact ⟨a', by simp [ha'], hb'⟩
      · rintro ⟨a', ha', hb'⟩
        rcases List.mem_cons.mp ha' with rfl | ha'
        · exact .inl (Except.ok.inj (hb'.symm.trans hb))
        · exact .inr ⟨a', ha', hb'⟩

theorem mapM_eq_ok_iff {α β ε : Type} {f : α → Except ε β} {l : List α} {bs : List β} :
    l.mapM f = .ok bs ↔ List.Forall₂ (fun a b => f a = .ok b) l bs := by
  induction l generalizing bs with
  | nil => cases bs <;> simp [pure, Except.pure]
  | cons a l ih =>
    rw [List.mapM_cons]
    cases hfirst : f a with
    | error fault => cases bs <;> simp [hfirst, bind, Except.bind]
    | ok b =>
      cases hrest : l.mapM f with
      | error fault => cases bs <;> simp [← ih, hfirst, hrest, bind, Except.bind]
      | ok others => cases bs <;> simp [← ih, hfirst, hrest, bind, Except.bind, pure, Except.pure]

theorem mapM_eq_error_iff {α β ε : Type} {f : α → Except ε β} {l : List α} {error : ε} :
    l.mapM f = .error error ↔
      ∃ before a after, l = before ++ a :: after ∧ (∀ b ∈ before, ∃ c, f b = .ok c) ∧ f a = .error error := by
  induction l with
  | nil => simp [pure, Except.pure]
  | cons a l ih =>
    rw [List.mapM_cons]
    cases hfirst : f a with
    | error fault =>
      constructor
      · intro h
        obtain rfl : fault = error := Except.error.inj h
        exact ⟨[], a, l, rfl, by simp, hfirst⟩
      · rintro ⟨before, a', after, hsplit, hbefore, herror⟩
        rcases List.cons_eq_append_iff.mp hsplit with ⟨-, hcons⟩ | ⟨before, rfl, -⟩
        · obtain ⟨rfl, -⟩ := List.cons.inj hcons
          rw [hfirst] at herror
          exact congrArg Except.error (Except.error.inj herror)
        · obtain ⟨c, hc⟩ := hbefore a (by simp)
          simp [hfirst] at hc
    | ok b =>
      have hmapM : (do let others ← l.mapM f; return b :: others) = .error error ↔ l.mapM f = .error error := by
        cases l.mapM f <;> simp [bind, Except.bind, pure, Except.pure]
      refine hmapM.trans (ih.trans ⟨?_, ?_⟩)
      · rintro ⟨before, a', after, rfl, hbefore, herror⟩
        exact ⟨a :: before, a', after, rfl, List.forall_mem_cons.mpr ⟨⟨b, hfirst⟩, hbefore⟩, herror⟩
      · rintro ⟨before, a', after, hsplit, hbefore, herror⟩
        rcases List.cons_eq_append_iff.mp hsplit with ⟨-, hcons⟩ | ⟨before, rfl, hl⟩
        · obtain ⟨rfl, -⟩ := List.cons.inj hcons
          simp [hfirst] at herror
        · exact ⟨before, a', after, hl, (List.forall_mem_cons.mp hbefore).2, herror⟩

theorem exists_of_mapM_error {α β ε : Type} {f : α → Except ε β} {l : List α} {error : ε}
    (h : l.mapM f = .error error) : ∃ a ∈ l, f a = .error error := by
  obtain ⟨before, a, after, rfl, -, herror⟩ := mapM_eq_error_iff.mp h
  exact ⟨a, by simp, herror⟩

theorem exists_mapM_error_iff {α β ε : Type} {f : α → Except ε β} {l : List α} :
    (∃ error, l.mapM f = .error error) ↔ ∃ a ∈ l, ∃ error, f a = .error error := by
  constructor
  · intro h
    obtain ⟨error, herror⟩ := h
    obtain ⟨a, ha, hfault⟩ := exists_of_mapM_error herror
    exact ⟨a, ha, error, hfault⟩
  · intro h
    obtain ⟨a, ha, error, hfault⟩ := h
    induction l with
    | nil => simp at ha
    | cons a' l ih =>
      rw [List.mapM_cons]
      cases hfirst : f a' with
      | error fault => exact ⟨fault, rfl⟩
      | ok b =>
        rcases List.mem_cons.mp ha with rfl | ha
        · simp [hfirst] at hfault
        · obtain ⟨fault, hrest⟩ := ih ha
          exact ⟨fault, by rw [hrest]; rfl⟩

theorem exists_mapM_ok_iff {α β ε : Type} {f : α → Except ε β} {l : List α} :
    (∃ bs, l.mapM f = .ok bs) ↔ ∀ a ∈ l, ∃ b, f a = .ok b := by
  constructor
  · rintro ⟨bs, h⟩ a ha
    cases hone : f a with
    | ok b => exact ⟨b, rfl⟩
    | error error =>
      obtain ⟨error', herror⟩ := exists_mapM_error_iff.mpr ⟨a, ha, error, hone⟩
      exact absurd (h.symm.trans herror) (by simp)
  · intro h
    obtain ⟨bs, hbs, -⟩ := exists_mapM_ok h
    exact ⟨bs, hbs⟩

theorem exists_of_mem_mapM {α β ε : Type} {f : α → Except ε β} {l : List α} {bs : List β} (h : l.mapM f = .ok bs)
    {b : β} (hb : b ∈ bs) : ∃ a ∈ l, f a = .ok b := by
  obtain ⟨bs', hbs', hmem⟩ := exists_mapM_ok (exists_mapM_ok_iff.mp ⟨bs, h⟩)
  obtain rfl := Except.ok.inj (h.symm.trans hbs')
  exact (hmem b).mp hb

theorem of_map_error {α β ε : Type} {g : α → β} {r : Except ε α} {error : ε} (h : g <$> r = .error error) :
    r = .error error := by
  cases r with
  | error fault =>
    obtain rfl : fault = error := Except.error.inj h
    rfl
  | ok a => simp [Functor.map, Except.map] at h

theorem of_map_ok {α β ε : Type} {g : α → β} {r : Except ε α} {b : β} (h : g <$> r = .ok b) :
    ∃ a, r = .ok a ∧ b = g a := by
  cases r with
  | error fault => simp [Functor.map, Except.map] at h
  | ok a => exact ⟨a, rfl, (Except.ok.inj h).symm⟩

theorem exists_map_error_iff {α β ε : Type} {g : α → β} {r : Except ε α} :
    (∃ error, g <$> r = .error error) ↔ ∃ error, r = .error error := by
  cases r with
  | error fault => simp [Functor.map, Except.map]
  | ok a => simp [Functor.map, Except.map]

theorem exists_map_ok_iff {α β ε : Type} {g : α → β} {r : Except ε α} : (∃ b, g <$> r = .ok b) ↔ ∃ a, r = .ok a := by
  cases r with
  | error fault => simp [Functor.map, Except.map]
  | ok a => simp [Functor.map, Except.map]

theorem exists_flatten_mapM_ok {α β ε : Type} {f : α → Except ε (List β)} {R : α → β → Prop} {l : List α}
    (h : ∀ a ∈ l, ∃ bs, f a = .ok bs ∧ ∀ b, b ∈ bs ↔ R a b) :
    ∃ bs, List.flatten <$> l.mapM f = .ok bs ∧ ∀ b, b ∈ bs ↔ ∃ a ∈ l, R a b := by
  obtain ⟨bss, hbss, hmem⟩ := exists_mapM_ok fun a ha => (h a ha).imp fun _ hbs => hbs.1
  refine ⟨bss.flatten, by rw [hbss]; rfl, fun b => ?_⟩
  simp only [List.mem_flatten, hmem]
  constructor
  · rintro ⟨bs, ⟨a, ha, hbs⟩, hb⟩
    obtain ⟨bs', hbs', hmem'⟩ := h a ha
    obtain rfl := Except.ok.inj (hbs.symm.trans hbs')
    exact ⟨a, ha, (hmem' b).mp hb⟩
  · rintro ⟨a, ha, hb⟩
    obtain ⟨bs, hbs, hmem'⟩ := h a ha
    exact ⟨bs, ⟨a, ha, hbs⟩, (hmem' b).mpr hb⟩

/-! ## Documents -/

namespace Document

/-- An attribute of a field has a value as its term and an owner in its metadata. -/
def Records (document : Document) (field value owner : String) : Prop :=
  ∃ a ∈ document.forField field, a.value.term = value ∧ ∃ id, a.documentId = .ok id ∧ id.owner = owner

/-- The owners of all attributes can be read. -/
def Readable (document : Document) : Prop :=
  ∀ field, ∀ a ∈ document.forField field, ∃ id, a.documentId = .ok id

@[simp] theorem forField_empty (field : String) : (∅ : Document).forField field = [] := rfl

theorem readable_empty : Readable ∅ := by
  intro field a ha
  simp at ha

theorem mem_forField_put {document : Document} {field other : String} {a b : Attribute} :
    b ∈ (document.put field a).forField other ↔ b ∈ document.forField other ∨ other = field ∧ b = a := by
  rw [forField_put]
  split
  · next heq =>
    subst heq
    split
    · next hmem =>
      refine ⟨.inl, ?_⟩
      rintro (hb | ⟨-, rfl⟩)
      · exact hb
      · exact hmem
    · simp
  · next hne => simp [hne]

theorem Readable.put {document : Document} {field : String} {a : Attribute} (h : document.Readable)
    (ha : ∃ id, a.documentId = .ok id) : (document.put field a).Readable := by
  intro other b hb
  rcases mem_forField_put.mp hb with hb | ⟨-, rfl⟩
  · exact h other b hb
  · exact ha

theorem not_records_empty (field value owner : String) : ¬Records ∅ field value owner := by
  rintro ⟨a, ha, -⟩
  simp at ha

end Document

namespace Occurrence

theorem exists_ofAttributes {field : String} (asked : SortedSet Bytes) {attributes : List Attribute}
    (h : ∀ a ∈ attributes, ∃ id, a.documentId = .ok id) :
    ∃ found, ofAttributes field asked attributes = .ok found ∧ ∀ o, o ∈ found ↔ ∃ a ∈ attributes,
      Utf8.encode (pairName a.value.term field) ∈ asked ∧ ∃ id, a.documentId = .ok id ∧
        o = ⟨field, pairName a.value.term field, id.owner⟩ := by
  have hread : ∀ a ∈ attributes.filter (fun a => decide (Utf8.encode (pairName a.value.term field) ∈ asked)),
      ∃ o : Occurrence, (do
        let id ← a.documentId
        return ⟨field, pairName a.value.term field, id.owner⟩ : Except KeyFault Occurrence) = .ok o := by
    intro a ha
    obtain ⟨id, hid⟩ := h a (List.mem_filter.mp ha).1
    exact ⟨⟨field, pairName a.value.term field, id.owner⟩, by rw [hid]; rfl⟩
  obtain ⟨found, hfound, hmem⟩ := exists_mapM_ok hread
  refine ⟨found, hfound, fun o => (hmem o).trans ?_⟩
  constructor
  · rintro ⟨a, ha, ho⟩
    obtain ⟨ha, hasked⟩ := List.mem_filter.mp ha
    obtain ⟨id, hid⟩ := h a ha
    rw [hid] at ho
    exact ⟨a, ha, by simpa using hasked, id, hid, (Except.ok.inj ho).symm⟩
  · rintro ⟨a, ha, hasked, id, hid, rfl⟩
    exact ⟨a, List.mem_filter.mpr ⟨ha, by simpa using hasked⟩, by rw [hid]; rfl⟩

theorem ofAttributes_error_iff {field : String} {asked : SortedSet Bytes} {attributes : List Attribute} :
    (∃ fault, ofAttributes field asked attributes = .error fault) ↔ ∃ a ∈ attributes,
      Utf8.encode (pairName a.value.term field) ∈ asked ∧ ∃ fault, a.documentId = .error fault := by
  rw [ofAttributes, exists_mapM_error_iff]
  constructor
  · intro h
    obtain ⟨a, ha, fault, hfault⟩ := h
    obtain ⟨ha, hasked⟩ := List.mem_filter.mp ha
    refine ⟨a, ha, by simpa using hasked, ?_⟩
    cases hid : a.documentId with
    | error fault => exact ⟨fault, rfl⟩
    | ok id => simp [hid, bind, Except.bind, pure, Except.pure] at hfault
  · intro h
    obtain ⟨a, ha, hasked, fault, hfault⟩ := h
    exact ⟨a, List.mem_filter.mpr ⟨ha, by simpa using hasked⟩, fault, by rw [hfault]; rfl⟩

/-! ## Owners -/

/-- Each pair is that of a value and the field it was recorded for. -/
def Named (known : List Occurrence) : Prop :=
  ∀ o ∈ known, NulFree o.field ∧ ∃ value, o.pair = pairName value o.field

theorem mem_owners {known : List Occurrence} (hnamed : Named known) {field value owner : String}
    (hfield : NulFree field) :
    owner ∈ owners known (pairName value field) ↔ ⟨field, pairName value field, owner⟩ ∈ known := by
  simp only [owners, List.mem_filterMap, Option.ite_none_right_eq_some, Option.some.injEq]
  constructor
  · rintro ⟨o, ho, hpair, rfl⟩
    obtain ⟨hfree, value', hname⟩ := hnamed o ho
    obtain ⟨-, hsame⟩ := pairName_inj hfree hfield (hname.symm.trans hpair)
    rw [← hsame, hsame, ← hpair, ← hsame]
    exact ho
  · intro ho
    exact ⟨_, ho, rfl, rfl⟩

theorem mem_commonOwners {known : List Occurrence} {pairs : List String} {owner : String} :
    owner ∈ commonOwners known pairs ↔ pairs ≠ [] ∧ ∀ pair ∈ pairs, owner ∈ owners known pair := by
  cases pairs with
  | nil => simp [commonOwners]
  | cons pair others => simp [commonOwners]

/-! ## Hits -/

theorem holds_eq_true_iff {known : List Occurrence} {field pair : String} :
    holds known field pair = true ↔ ∃ owner, ⟨field, pair, owner⟩ ∈ known := by
  simp only [holds, List.any_eq_true, Bool.and_eq_true, beq_iff_eq]
  constructor
  · rintro ⟨⟨_, _, owner⟩, ho, rfl, rfl⟩
    exact ⟨owner, ho⟩
  · rintro ⟨owner, ho⟩
    exact ⟨_, ho, rfl, rfl⟩

/-- Hits of a function in a field. The function asks for one value at least, or it has no pair to hit. -/
theorem mem_hitsIn {known : List Occurrence} (hnamed : Named known) {datatype field : String} {d : Descriptor}
    (hfield : NulFree field) {h : Hit} :
    h ∈ hitsIn known datatype d field ↔ ∃ value ∈ d.values, ∃ owner, h = Hit.ofParts ⟨datatype, owner⟩ value field ∧
      ∀ w ∈ d.values, ⟨field, pairName w field, owner⟩ ∈ known := by
  have hcommon (owner : String) (hne : d.pairs field ≠ []) : owner ∈ commonOwners known (d.pairs field) ↔
      ∀ w ∈ d.values, ⟨field, pairName w field, owner⟩ ∈ known := by
    rw [mem_commonOwners, and_iff_right hne]
    constructor
    · intro h w hw
      exact (mem_owners hnamed hfield).mp (h _ (Descriptor.mem_pairs.mpr ⟨w, hw, rfl⟩))
    · intro h pair hpair
      obtain ⟨w, hw, rfl⟩ := Descriptor.mem_pairs.mp hpair
      exact (mem_owners hnamed hfield).mpr (h w hw)
  unfold hitsIn
  constructor
  · intro hmem
    dsimp only at hmem
    split at hmem
    · obtain ⟨owner, howner, hmem⟩ := List.mem_flatMap.mp hmem
      obtain ⟨pair, hpair, rfl⟩ := List.mem_map.mp hmem
      obtain ⟨value, hvalue, rfl⟩ := Descriptor.mem_pairs.mp hpair
      exact ⟨value, hvalue, owner, rfl, (hcommon owner (List.ne_nil_of_mem hpair)).mp howner⟩
    · simp at hmem
  · rintro ⟨value, hvalue, owner, rfl, hall⟩
    have hpair : pairName value field ∈ d.pairs field := Descriptor.mem_pairs.mpr ⟨value, hvalue, rfl⟩
    have hholds : (d.pairs field).all (holds known field) = true := by
      rw [List.all_eq_true]
      intro pair hpair
      obtain ⟨w, hw, rfl⟩ := Descriptor.mem_pairs.mp hpair
      exact holds_eq_true_iff.mpr ⟨owner, hall w hw⟩
    rw [if_pos hholds]
    exact List.mem_flatMap.mpr ⟨owner, (hcommon owner (List.ne_nil_of_mem hpair)).mpr hall,
      List.mem_map.mpr ⟨_, hpair, rfl⟩⟩

/-- The hits of functions are their pairs at every owner that holds all pairs of the function in the field. -/
theorem mem_hits {known : List Occurrence} (hnamed : Named known) {datatype : String} {descriptors : List Descriptor}
    (hfields : ∀ d ∈ descriptors, ∀ field ∈ d.fields, NulFree field) {h : Hit} :
    h ∈ hits known datatype descriptors ↔ ∃ d ∈ descriptors, ∃ field ∈ d.fields, ∃ value ∈ d.values, ∃ owner,
      h = Hit.ofParts ⟨datatype, owner⟩ value field ∧
        ∀ w ∈ d.values, ⟨field, pairName w field, owner⟩ ∈ known := by
  rw [hits, SortedSet.mem_ofList, List.mem_flatMap]
  refine exists_congr fun d => and_congr_right fun hd => ?_
  rw [List.mem_flatMap]
  refine exists_congr fun field => ?_
  rw [SortedSet.mem_toList]
  exact and_congr_right fun hfield => mem_hitsIn hnamed (hfields d hd field hfield)

end Occurrence

end ProximitySearch
