import ProximitySearch.Hit
import ProximitySearch.Proofs.Utf8

/-!
# Composite names read back

Names of components that hold no separator are read back as they were written: families of documents and
field-index qualifiers from the left (`DocumentId.parse_eq_ok_iff`, `parseFieldIndexQualifier_eq_ok_iff`),
and pairs from the right (`pairName_inj`), for a field holds no separator while a value may. A hit is split at every
separator, so none of its four components may hold one (`Hit.parse_eq_ok_iff_ofParts`).
`composite_names_read_back` says so of all four formats.
-/

namespace ProximitySearch

open Composite

/-- A text without separators. -/
abbrev NulFree (s : String) : Prop := separator ∉ s.toList

namespace Composite

@[simp] theorem toList_join (left right : String) :
    (join left right).toList = left.toList ++ separator :: right.toList := by
  simp [join]

theorem encode_join (left right : String) :
    Utf8.encode (join left right) = Utf8.encode left ++ 0 :: Utf8.encode right := by
  simp only [join, Utf8.encode_append]
  rw [List.append_assoc]
  rfl

theorem append_cons_right_inj {α : Type} {sep : α} {l l' r r' : List α} (hr : sep ∉ r) (hr' : sep ∉ r')
    (h : l ++ sep :: r = l' ++ sep :: r') : l = l' ∧ r = r' := by
  induction l generalizing l' with
  | nil =>
    cases l' with
    | nil => simpa using h
    | cons a l' =>
      obtain ⟨rfl, rfl⟩ : sep = a ∧ r = l' ++ sep :: r' := by simpa using h
      simp at hr
  | cons a l ih =>
    cases l' with
    | nil =>
      obtain ⟨rfl, rfl⟩ : a = sep ∧ l ++ sep :: r = r' := by simpa using h
      simp at hr'
    | cons b l' =>
      obtain ⟨rfl, htail⟩ : a = b ∧ l ++ sep :: r = l' ++ sep :: r' := by simpa using h
      obtain ⟨rfl, rfl⟩ := ih htail
      exact ⟨rfl, rfl⟩

theorem join_inj {left right left' right' : String} (hr : NulFree right) (hr' : NulFree right')
    (h : join left right = join left' right') : left = left' ∧ right = right' := by
  have hlist := congrArg String.toList h
  rw [toList_join, toList_join] at hlist
  obtain ⟨hl, hr⟩ := append_cons_right_inj hr hr' hlist
  exact ⟨String.toList_inj.mp hl, String.toList_inj.mp hr⟩

theorem cutText?_eq_some_iff {text left right : String} :
    cutText? text = some (left, right) ↔ NulFree left ∧ text = join left right := by
  rw [cutText?, Option.map_eq_some_iff]
  constructor
  · rintro ⟨⟨l, r⟩, hcut, heq⟩
    obtain ⟨rfl, rfl⟩ := Prod.mk.inj heq
    obtain ⟨htext, hl⟩ := eq_append_of_cut? hcut
    refine ⟨by simpa [NulFree] using hl, String.toList_inj.mp ?_⟩
    simpa using htext
  · rintro ⟨hl, rfl⟩
    exact ⟨_, by rw [toList_join, cut?_append hl], by simp⟩

theorem join_inj_left {left right left' right' : String} (hl : NulFree left) (hl' : NulFree left')
    (h : join left right = join left' right') : left = left' ∧ right = right' := by
  have hcut : cutText? (join left right) = some (left, right) := cutText?_eq_some_iff.mpr ⟨hl, rfl⟩
  have hcut' : cutText? (join left right) = some (left', right') := cutText?_eq_some_iff.mpr ⟨hl', h⟩
  exact Prod.mk.inj (Option.some.inj (hcut.symm.trans hcut'))

/-! ## Components -/

section Split

variable {α : Type} [DecidableEq α] {sep : α}

theorem exists_split (sep : α) (l : List α) : ∃ part parts, split sep l = part :: parts := by
  cases l with
  | nil => exact ⟨[], [], rfl⟩
  | cons a rest =>
    unfold split
    split
    · exact ⟨_, _, rfl⟩
    · split
      · exact ⟨_, _, rfl⟩
      · exact ⟨_, _, rfl⟩

theorem split_append {left : List α} (h : sep ∉ left) (rest : List α) :
    ∃ part parts, split sep rest = part :: parts ∧ split sep (left ++ rest) = (left ++ part) :: parts := by
  induction left with
  | nil =>
    obtain ⟨part, parts, hsplit⟩ := exists_split sep rest
    exact ⟨part, parts, hsplit, hsplit⟩
  | cons a left ih =>
    obtain ⟨hne, hmem⟩ := not_or.mp (mt List.mem_cons.mpr h)
    obtain ⟨part, parts, hrest, hsplit⟩ := ih hmem
    refine ⟨part, parts, hrest, ?_⟩
    rw [List.cons_append, split, if_neg (Ne.symm hne), hsplit]
    rfl

theorem length_split (sep : α) (l : List α) : (split sep l).length = l.count sep + 1 := by
  induction l with
  | nil => rfl
  | cons a rest ih =>
    unfold split
    split
    · next heq => simp [ih, heq]
    · next hne =>
      obtain ⟨part, parts, hsplit⟩ := exists_split sep rest
      rw [hsplit] at ih ⊢
      rw [List.count_cons_of_ne hne, ← ih]
      rfl

end Split

theorem components_append {left : String} (h : NulFree left) (right : String) :
    ∃ part parts, components right = part :: parts ∧ components (left ++ right) = (left ++ part) :: parts := by
  obtain ⟨part, parts, hright, hsplit⟩ := split_append h right.toList
  refine ⟨String.ofList part, parts.map String.ofList, by simp [components, hright], ?_⟩
  rw [components, String.toList_append, hsplit, List.map_cons, String.ofList_append, String.ofList_toList]

theorem components_of_nulFree {text : String} (h : NulFree text) : components text = [text] := by
  obtain ⟨part, parts, hnil, happend⟩ := components_append h ""
  obtain ⟨rfl, rfl⟩ := List.cons.inj hnil
  simpa using happend

theorem components_join {left : String} (h : NulFree left) (right : String) :
    components (join left right) = left :: components right := by
  have hempty : components (separator.toString ++ right) = "" :: components right := by
    simp [components, split]
  obtain ⟨part, parts, hright, happend⟩ := components_append h (separator.toString ++ right)
  obtain ⟨rfl, rfl⟩ := List.cons.inj (hempty.symm.trans hright)
  rw [join, String.append_assoc, happend, String.append_empty]

theorem length_components (text : String) : (components text).length = text.toList.count separator + 1 := by
  rw [components, List.length_map, length_split]

theorem nulFree_of_length_components {text : String} (h : (components text).length = 1) : NulFree text := by
  rw [length_components] at h
  exact List.count_eq_zero.mp (by omega)

theorem exists_join_of_length_components {text : String} {count : Nat} (h : (components text).length = count + 2) :
    ∃ left right, NulFree left ∧ text = join left right ∧ (components right).length = count + 1 := by
  have hmem : separator ∈ text.toList := by
    rw [length_components] at h
    exact List.count_pos_iff.mp (by omega)
  obtain ⟨left, right, htext, hleft⟩ := List.eq_append_cons_of_mem hmem
  have hfree : NulFree (String.ofList left) := by simpa [NulFree] using hleft
  have hjoin : text = join (String.ofList left) (String.ofList right) := String.toList_inj.mp (by simp [htext])
  refine ⟨_, _, hfree, hjoin, ?_⟩
  rw [hjoin, components_join hfree, List.length_cons] at h
  omega

end Composite

/-! ## Documents, pairs and the field index -/

theorem pairName_eq (value field : String) : pairName value field = value ++ "\x00" ++ field := rfl

theorem fieldIndexFamily_eq (field : String) : fieldIndexFamily field = "fi\x00" ++ field := rfl

theorem fieldIndexQualifier_eq (value : String) (id : DocumentId) :
    fieldIndexQualifier value id = value ++ "\x00" ++ id.datatype ++ "\x00" ++ id.owner := by
  simp only [fieldIndexQualifier, join, String.append_assoc]
  rfl

theorem isSameOrChildOwner_iff {owner parent : String} :
    isSameOrChildOwner owner parent = true ↔ owner = parent ∨ ∃ rest, owner = parent ++ "." ++ rest := by
  simp only [isSameOrChildOwner, Bool.or_eq_true, beq_iff_eq, List.isPrefixOf_iff_prefix]
  apply or_congr_right
  constructor
  · intro h
    obtain ⟨rest, hrest⟩ := h
    refine ⟨String.ofList rest, String.toList_inj.mp ?_⟩
    simp [← hrest]
  · intro h
    obtain ⟨rest, rfl⟩ := h
    exact ⟨rest.toList, by simp⟩

theorem pairName_inj {value field value' field' : String} (hf : NulFree field) (hf' : NulFree field')
    (h : pairName value field = pairName value' field') : value = value' ∧ field = field' :=
  join_inj hf hf' h

theorem DocumentId.parse_eq_ok_iff {family : Bytes} {id : DocumentId} :
    DocumentId.parse family = .ok id ↔ NulFree id.datatype ∧ family = id.family := by
  constructor
  · intro h
    unfold DocumentId.parse at h
    split at h
    · simp at h
    · next datatype owner hcut =>
      obtain ⟨rfl, hzero⟩ := eq_append_of_cut? hcut
      cases hd : Utf8.decode datatype with
      | error e => simp [hd, Except.mapError, bind, Except.bind] at h
      | ok d =>
        cases ho : Utf8.decode owner with
        | error e => simp [hd, ho, Except.mapError, bind, Except.bind] at h
        | ok o =>
          simp only [hd, ho, Except.mapError, bind, Except.bind, pure, Except.pure, Except.ok.injEq] at h
          obtain rfl := Utf8.decode_eq_ok_iff.mp hd
          obtain rfl := Utf8.decode_eq_ok_iff.mp ho
          subst h
          exact ⟨fun hmem => hzero ((Utf8.zero_mem_encode d).mpr hmem), (encode_join d o).symm⟩
  · rintro ⟨hfree, rfl⟩
    have hzero : (0 : UInt8) ∉ Utf8.encode id.datatype := fun hmem => hfree ((Utf8.zero_mem_encode _).mp hmem)
    unfold DocumentId.parse DocumentId.family
    rw [encode_join, cut?_append hzero]
    simp [Except.mapError, bind, Except.bind, pure, Except.pure]

theorem parseFieldIndexQualifier_eq_ok_iff {qualifier : Bytes} {id : DocumentId} :
    parseFieldIndexQualifier qualifier = .ok id ↔ ∃ value, NulFree value ∧ NulFree id.datatype ∧
      qualifier = Utf8.encode (fieldIndexQualifier value id) := by
  unfold parseFieldIndexQualifier
  cases htext : Utf8.decode qualifier with
  | error e =>
    simp only [Except.mapError, bind, Except.bind]
    refine ⟨fun h => by simp at h, ?_⟩
    rintro ⟨value, -, -, rfl⟩
    simp at htext
  | ok text =>
    obtain rfl := Utf8.decode_eq_ok_iff.mp htext
    simp only [Except.mapError, bind, Except.bind, Utf8.encode_inj]
    constructor
    · intro h
      split at h
      · next datatype owner hcut =>
        obtain ⟨⟨value, rest⟩, hcut, hrest⟩ := Option.bind_eq_some_iff.mp hcut
        obtain ⟨hvalue, rfl⟩ := cutText?_eq_some_iff.mp hcut
        obtain ⟨hdatatype, rfl⟩ := cutText?_eq_some_iff.mp hrest
        obtain rfl := Except.ok.inj h
        exact ⟨value, hvalue, hdatatype, rfl⟩
      · simp [throw, throwThe, MonadExceptOf.throw] at h
    · rintro ⟨value, hvalue, hdatatype, rfl⟩
      have hcut : cutText? (fieldIndexQualifier value id) = some (value, join id.datatype id.owner) :=
        cutText?_eq_some_iff.mpr ⟨hvalue, rfl⟩
      have hrest : cutText? (join id.datatype id.owner) = some (id.datatype, id.owner) :=
        cutText?_eq_some_iff.mpr ⟨hdatatype, rfl⟩
      simp [hcut, hrest, pure, Except.pure]

/-! ## Hits -/

namespace Hit

theorem name_ofParts (id : DocumentId) (value field : String) :
    (ofParts id value field).name = id.datatype ++ "\x00" ++ id.owner ++ "\x00" ++ value ++ "\x00" ++ field := by
  simp only [ofParts, ofPair, pairName, join, String.append_assoc]
  rfl

theorem eq_ofParts_iff {hit : Hit} {id : DocumentId} {value field : String} : hit = ofParts id value field ↔
    hit.name = id.datatype ++ "\x00" ++ id.owner ++ "\x00" ++ value ++ "\x00" ++ field := by
  rw [← name_ofParts]
  constructor
  · rintro rfl
    rfl
  · intro hname
    cases hit
    exact congrArg mk hname

theorem parse_eq_ok_iff {qualifier : Bytes} {hit : Hit} :
    parse qualifier = .ok hit ↔ qualifier = hit.bytes ∧ (Composite.components hit.name).length = 4 := by
  constructor
  · intro h
    unfold parse at h
    cases hname : Utf8.decode qualifier with
    | error fault => simp [hname, Except.mapError, bind, Except.bind] at h
    | ok name =>
      simp only [hname, Except.mapError, bind, Except.bind] at h
      split at h
      · next hcount =>
        obtain rfl := Except.ok.inj h
        exact ⟨Utf8.decode_eq_ok_iff.mp hname, hcount⟩
      · simp [throw, throwThe, MonadExceptOf.throw] at h
  · rintro ⟨rfl, hcount⟩
    simp only [parse, bytes, Utf8.decode_encode, Except.mapError, bind, Except.bind, hcount, if_true]
    rfl

theorem parse_bytes_iff {hit : Hit} : parse hit.bytes = .ok hit ↔ (Composite.components hit.name).length = 4 :=
  parse_eq_ok_iff.trans (and_iff_right rfl)

theorem bytes_inj {a b : Hit} : a.bytes = b.bytes ↔ a = b := by
  constructor
  · intro h
    have hname : a.name = b.name := Utf8.encode_inj.mp h
    cases a
    cases b
    exact congrArg Hit.mk hname
  · intro h
    rw [h]

/-- A hit is read back from its octets, with the components of the document, the value and the field. -/
structure Decodes (hit : Hit) (id : DocumentId) (value field : String) : Prop where
  parse : parse hit.bytes = .ok hit
  datatype : hit.datatype = id.datatype
  owner : hit.owner = id.owner
  value : hit.value = value
  field : hit.field = field

/-- A hit is decoded into what it was made of just if neither owner nor value holds a separator. -/
theorem decodes_ofParts_iff {id : DocumentId} {value field : String} (hdatatype : NulFree id.datatype)
    (hfield : NulFree field) : (ofParts id value field).Decodes id value field ↔ NulFree id.owner ∧ NulFree value := by
  constructor
  · intro h
    have hcount := parse_bytes_iff.mp h.parse
    have hdatatype := List.count_eq_zero.mpr hdatatype
    have hfield := List.count_eq_zero.mpr hfield
    rw [Composite.length_components] at hcount
    simp only [ofParts, ofPair, pairName, Composite.toList_join, List.count_append, List.count_cons_self, hdatatype,
      hfield] at hcount
    exact ⟨List.count_eq_zero.mp (by omega), List.count_eq_zero.mp (by omega)⟩
  · rintro ⟨howner, hvalue⟩
    have hparts : Composite.components (ofParts id value field).name = [id.datatype, id.owner, value, field] := by
      rw [ofParts, ofPair, pairName, Composite.components_join hdatatype, Composite.components_join howner,
        Composite.components_join hvalue, Composite.components_of_nulFree hfield]
    refine ⟨parse_bytes_iff.mpr (by rw [hparts]; rfl), ?_, ?_, ?_, ?_⟩
    · rw [Hit.datatype, part, hparts]
      rfl
    · rw [Hit.owner, part, hparts]
      rfl
    · rw [Hit.value, part, hparts]
      rfl
    · rw [Hit.field, part, hparts]
      rfl

theorem parse_eq_ok_iff_ofParts {qualifier : Bytes} {hit : Hit} :
    parse qualifier = .ok hit ↔ ∃ id value field, NulFree id.datatype ∧ NulFree id.owner ∧ NulFree value ∧
      NulFree field ∧ hit = ofParts id value field ∧ qualifier = hit.bytes := by
  constructor
  · intro h
    obtain ⟨hbytes, hfour⟩ := parse_eq_ok_iff.mp h
    obtain ⟨datatype, _, hdatatype, hname, hthree⟩ := Composite.exists_join_of_length_components hfour
    obtain ⟨owner, _, howner, rfl, htwo⟩ := Composite.exists_join_of_length_components hthree
    obtain ⟨value, field, hvalue, rfl, hone⟩ := Composite.exists_join_of_length_components htwo
    have hfield := Composite.nulFree_of_length_components hone
    refine ⟨⟨datatype, owner⟩, value, field, hdatatype, howner, hvalue, hfield, ?_, hbytes⟩
    rw [ofParts, ofPair, pairName, ← hname]
  · rintro ⟨id, value, field, hdatatype, howner, hvalue, hfield, rfl, rfl⟩
    exact ((decodes_ofParts_iff hdatatype hfield).mpr ⟨howner, hvalue⟩).parse

theorem ofParts_of_parse {qualifier : Bytes} {hit : Hit} (h : parse qualifier = .ok hit) :
    ofParts ⟨hit.datatype, hit.owner⟩ hit.value hit.field = hit := by
  obtain ⟨id, value, field, hdatatype, howner, hvalue, hfield, rfl, -⟩ := parse_eq_ok_iff_ofParts.mp h
  have hdecodes := (decodes_ofParts_iff hdatatype hfield).mpr ⟨howner, hvalue⟩
  rw [hdecodes.datatype, hdecodes.owner, hdecodes.value, hdecodes.field]

end Hit

/-! ## All names -/

/-- Field-index qualifiers are read back as the document they were written for, whatever its owner, and what is read
was written for one value; a document's family and a hit are read just if they were written, a hit being made of the
components that it shows; and pairs of fields without separators are different if their names are. -/
theorem composite_names_read_back :
    (∀ value id, NulFree value → NulFree id.datatype →
      parseFieldIndexQualifier (Utf8.encode (fieldIndexQualifier value id)) = .ok id) ∧
    (∀ qualifier id, parseFieldIndexQualifier qualifier = .ok id →
      ∃! value, NulFree value ∧ qualifier = Utf8.encode (fieldIndexQualifier value id)) ∧
    (∀ family id, DocumentId.parse family = .ok id ↔
      NulFree id.datatype ∧ family = Utf8.encode (join id.datatype id.owner)) ∧
    (∀ qualifier hit, Hit.parse qualifier = .ok hit ↔ ∃ id value field, NulFree id.datatype ∧ NulFree id.owner ∧
      NulFree value ∧ NulFree field ∧ hit = Hit.ofParts id value field ∧ qualifier = hit.bytes) ∧
    (∀ qualifier hit, Hit.parse qualifier = .ok hit →
      Hit.ofParts ⟨hit.datatype, hit.owner⟩ hit.value hit.field = hit) ∧
    ∀ value field value' field', NulFree field → NulFree field' →
      (pairName value field = pairName value' field' ↔ value = value' ∧ field = field') := by
  refine ⟨fun value id hvalue hdatatype => ?_, fun qualifier id h => ?_, fun _ _ => DocumentId.parse_eq_ok_iff,
    fun _ _ => Hit.parse_eq_ok_iff_ofParts, fun _ _ => Hit.ofParts_of_parse, fun value field value' field' hf hf' => ?_⟩
  · exact parseFieldIndexQualifier_eq_ok_iff.mpr ⟨value, hvalue, hdatatype, rfl⟩
  · obtain ⟨value, hvalue, -, hqualifier⟩ := parseFieldIndexQualifier_eq_ok_iff.mp h
    refine ⟨value, ⟨hvalue, hqualifier⟩, ?_⟩
    rintro other ⟨hother, hsame⟩
    exact (join_inj_left hother hvalue (Utf8.encode_inj.mp (hsame.symm.trans hqualifier))).1
  · refine ⟨pairName_inj hf hf', ?_⟩
    rintro ⟨rfl, rfl⟩
    rfl

/-- A hit with an empty value, at an owner whose id takes two octets. -/
def emptyValueHit : Hit := .ofParts ⟨"doc", "ü"⟩ "" "BODY"

/-- The value of the qualifier takes two octets, the datatype is empty, and the owner holds a separator; so does the
value of the first pair. -/
theorem composite_names_read_back_umlaut :
    (NulFree "ä" ∧ NulFree "") ∧
      parseFieldIndexQualifier (Utf8.encode (fieldIndexQualifier "ä" ⟨"", "u\x00.1"⟩)) = .ok ⟨"", "u\x00.1"⟩ ∧
      (∃! value, NulFree value ∧ Utf8.encode (fieldIndexQualifier "ä" ⟨"", "u\x00.1"⟩) =
        Utf8.encode (fieldIndexQualifier value ⟨"", "u\x00.1"⟩)) ∧
      Hit.parse emptyValueHit.bytes = .ok emptyValueHit ∧
      Hit.ofParts ⟨emptyValueHit.datatype, emptyValueHit.owner⟩ emptyValueHit.value emptyValueHit.field =
        emptyValueHit ∧
      pairName "a\x00b" "c" ≠ pairName "a" "c" := by
  obtain ⟨hread, hunique, -, hhit, hshown, hpair⟩ := composite_names_read_back
  have hvalue : NulFree "ä" := by decide
  have hempty : NulFree "" := by decide
  have hqualifier := hread "ä" ⟨"", "u\x00.1"⟩ hvalue hempty
  have hparse : Hit.parse emptyValueHit.bytes = .ok emptyValueHit :=
    (hhit _ _).mpr ⟨⟨"doc", "ü"⟩, "", "BODY", by decide, by decide, hempty, by decide, rfl, rfl⟩
  refine ⟨⟨hvalue, hempty⟩, hqualifier, hunique _ _ hqualifier, hparse, hshown _ _ hparse, fun hsame => ?_⟩
  have hvalues := ((hpair _ _ _ _ (by decide) (by decide)).mp hsame).1
  exact absurd hvalues (by decide)

end ProximitySearch
