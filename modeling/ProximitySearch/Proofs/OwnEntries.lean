import ProximitySearch.Cursor
import ProximitySearch.FieldIndex
import ProximitySearch.Proofs.Lookup
import ProximitySearch.Proofs.Walk

/-!
# What a single lookup finds

The range of a lookup holds the entries of a value whose owner starts with that of the document, and all of
them can be read if the qualifiers are texts (`exists_owner_of_contains`). Among these are the entries of
the document and its parts (`contains_entryKey`), and a lookup over a list puts exactly their owners into
what it found (`fetch_spec`, and in terms of owners and keys `fetch_finds_own`).
-/

namespace ProximitySearch

open Std

/-! ## Byte strings with a common start -/

theorem between_append_iff {x p b : Bytes} :
    (compare x p).isLT = false ∧ (compare x (p ++ b)).isGE = false ↔
      ∃ rest, x = p ++ rest ∧ compare rest b = .lt := by
  induction p generalizing x with
  | nil =>
    have hnil : (compare x []).isLT = false := by cases x <;> simp [List.compare_cons_nil]
    simp [hnil]
  | cons a p ih =>
    cases x with
    | nil => simp [List.compare_nil_cons]
    | cons c x =>
      rw [List.cons_append, List.compare_cons_cons, List.compare_cons_cons]
      by_cases hca : c = a
      · subst hca
        simpa using ih
      · have hne : compare c a ≠ .eq := fun heq => hca (LawfulEqCmp.eq_of_compare heq)
        cases h : compare c a <;> simp_all

theorem SortedMap.contains_iff {κ β : Type} [Ord κ] [LawfulEqOrd κ] {m : SortedMap κ β} {k : κ} :
    m.contains k = true ↔ ∃ v, (k, v) ∈ m.toList := by
  rw [contains, get?, Option.isSome_map, List.find?_isSome]
  constructor
  · rintro ⟨⟨k', v⟩, hmem, heq⟩
    obtain rfl : k = k' := LawfulEqCmp.eq_of_compare (beq_iff_eq.mp heq)
    exact ⟨v, hmem⟩
  · rintro ⟨v, hmem⟩
    exact ⟨_, hmem, beq_iff_eq.mpr ReflCmp.compare_self⟩

theorem SortedMap.contains_insert {κ β : Type} [Ord κ] [TransOrd κ] [LawfulEqOrd κ] [DecidableEq κ]
    {m : SortedMap κ β} {k k' : κ} {v : β} :
    (m.insert k v).contains k' = true ↔ k' = k ∨ m.contains k' = true := by
  rw [contains, get?_insert]
  split
  · next h => simp [h]
  · next h => simp [h, contains]

/-! ## Entries -/

/-- The key of the entry that says that a document holds a value in a field: its family is `fi\0field` and its
qualifier `value\0datatype\0owner`. -/
def entryKey (row : Bytes) (field value : String) (id : DocumentId) : Key :=
  ⟨row, Utf8.encode ("fi\x00" ++ field), Utf8.encode (value ++ "\x00" ++ id.datatype ++ "\x00" ++ id.owner)⟩

theorem entryKey_eq (row : Bytes) (field value : String) (id : DocumentId) : entryKey row field value id =
    ⟨row, Utf8.encode (fieldIndexFamily field), Utf8.encode (fieldIndexQualifier value id)⟩ := by
  rw [entryKey, fieldIndexFamily_eq, fieldIndexQualifier_eq]

namespace Entries

/-- The qualifiers of all fields' entries are texts. -/
def TextQualifiers (entries : Entries) : Prop :=
  ∀ e ∈ entries.toList, ∀ field, e.1.family = Utf8.encode ("fi\x00" ++ field) →
    ∃ text, e.1.qualifier = Utf8.encode text

/-- There is an entry of a value in a field for an owner, which is that of the document or of one of its
parts. -/
def Finds (entries : Entries) (row : Bytes) (id : DocumentId) (field value owner : String) : Prop :=
  (owner = id.owner ∨ ∃ rest, owner = id.owner ++ "." ++ rest) ∧
    entries.contains (entryKey row field value ⟨id.datatype, owner⟩) = true

theorem textQualifiers_empty : TextQualifiers ∅ :=
  fun _ he => absurd he List.not_mem_nil

theorem TextQualifiers.insert {entries : Entries} (h : entries.TextQualifiers) (row family : Bytes) (text : String)
    (value : Bytes) : TextQualifiers (SortedMap.insert entries ⟨row, family, Utf8.encode text⟩ value) := by
  intro e he field hfamily
  rcases SortedMap.mem_of_mem_insertAscending he with rfl | he
  · exact ⟨text, rfl⟩
  · exact h e he field hfamily

end Entries

namespace NegatedLookup

theorem contains_lookupRange_iff {row : Bytes} {id : DocumentId} {field value : String} {key : Key} :
    (lookupRange row id field value).contains key = true ↔
      key.row = row ∧ key.family = Utf8.encode (fieldIndexFamily field) ∧
        ∃ rest, key.qualifier = Utf8.encode (fieldIndexQualifier value id) ++ rest ∧
          compare rest (Utf8.encode lastCodePoint.toString) = .lt := by
  rw [← between_append_iff, ← Utf8.encode_append]
  simp only [KeyRange.contains, KeyRange.beforeStart, KeyRange.afterEnd, lookupRange, KeyRange.halfOpen, Key.compare_eq,
    Bool.and_eq_true, Bool.not_eq_true']
  by_cases hrow : key.row = row
  · by_cases hfamily : key.family = Utf8.encode (fieldIndexFamily field)
    · simp [hrow, hfamily]
    · have hne : compare key.family (Utf8.encode (fieldIndexFamily field)) ≠ .eq :=
        fun heq => hfamily (LawfulEqCmp.eq_of_compare heq)
      cases h : compare key.family (Utf8.encode (fieldIndexFamily field)) <;> simp_all
  · have hne : compare key.row row ≠ .eq := fun heq => hrow (LawfulEqCmp.eq_of_compare heq)
    cases h : compare key.row row <;> simp_all

/-- An entry in the range of a lookup is that of the value for some owner, and is read as such. -/
theorem exists_owner_of_contains {row : Bytes} {id : DocumentId} {field value : String} (hvalue : NulFree value)
    (hdatatype : NulFree id.datatype) {key : Key} (hkey : (lookupRange row id field value).contains key = true)
    {text : String} (htext : key.qualifier = Utf8.encode text) :
    ∃ owner, key = entryKey row field value ⟨id.datatype, owner⟩ ∧
      parseFieldIndexQualifier key.qualifier = .ok ⟨id.datatype, owner⟩ := by
  obtain ⟨hrow, hfamily, rest, hrest, -⟩ := contains_lookupRange_iff.mp hkey
  obtain ⟨more, hmore⟩ := Utf8.prefix_of_encode_prefix ⟨rest, hrest.symm.trans htext⟩
  have htext' : text = fieldIndexQualifier value ⟨id.datatype, id.owner ++ String.ofList more⟩ := by
    apply String.toList_inj.mp
    rw [← hmore]
    simp [fieldIndexQualifier]
  refine ⟨id.owner ++ String.ofList more, ?_, ?_⟩
  · obtain ⟨_, _, _⟩ := key
    rw [entryKey_eq, Key.mk.injEq]
    exact ⟨hrow, hfamily, htext.trans (congrArg Utf8.encode htext')⟩
  · exact parseFieldIndexQualifier_eq_ok_iff.mpr ⟨value, hvalue, hdatatype, htext.trans (congrArg Utf8.encode htext')⟩

/-- Entries of the document and its parts are in the range: an owner continues the document's with a dot, if
at all. -/
theorem contains_entryKey {row : Bytes} {id : DocumentId} {field value owner : String}
    (h : isSameOrChildOwner owner id.owner = true) :
    (lookupRange row id field value).contains (entryKey row field value ⟨id.datatype, owner⟩) = true := by
  have hmore : ∃ more, owner = id.owner ++ more ∧
      compare (Utf8.encode more) (Utf8.encode lastCodePoint.toString) = .lt := by
    simp only [isSameOrChildOwner, Bool.or_eq_true, beq_iff_eq, List.isPrefixOf_iff_prefix] at h
    rcases h with rfl | ⟨more, hmore⟩
    · exact ⟨"", by simp, by decide⟩
    · refine ⟨"." ++ String.ofList more, ?_, ?_⟩
      · apply String.toList_inj.mp
        rw [← hmore]
        simp
      · rw [Utf8.encode_append]
        rfl
  obtain ⟨more, rfl, hlt⟩ := hmore
  refine contains_lookupRange_iff.mpr ⟨rfl, rfl, Utf8.encode more, ?_, hlt⟩
  rw [entryKey, ← Utf8.encode_append]
  apply congrArg Utf8.encode
  apply String.toList_inj.mp
  simp [fieldIndexQualifier]

/-! ## Lookups -/

section Fetch

variable {σ : Type} {index : Source σ} {row : Bytes} {id : DocumentId} {field value : String}

theorem records_of_mem_forField {found found' : Document} {owns : String → Prop} (h : NulFree id.datatype)
    (hadded : ∀ f a, a ∈ found'.forField f ↔ a ∈ found.forField f ∨
      f = field ∧ ∃ o, owns o ∧ a = attributeOf row ⟨id.datatype, o⟩ field value) {f v o : String} :
    found'.Records f v o ↔ found.Records f v o ∨ f = field ∧ v = value ∧ owns o := by
  have hid (o : String) : (attributeOf row ⟨id.datatype, o⟩ field value).documentId = .ok ⟨id.datatype, o⟩ :=
    documentId_attributeOf (show NulFree (DocumentId.mk id.datatype o).datatype from h) row field value
  constructor
  · rintro ⟨a, ha, rfl, id', hread, rfl⟩
    rcases (hadded f a).mp ha with ha | ⟨rfl, o, ho, rfl⟩
    · exact .inl ⟨a, ha, rfl, id', hread, rfl⟩
    · obtain rfl := Except.ok.inj (hread.symm.trans (hid o))
      exact .inr ⟨rfl, rfl, ho⟩
  · rintro (⟨a, ha, rfl, id', hread, rfl⟩ | ⟨rfl, rfl, ho⟩)
    · exact ⟨a, (hadded f a).mpr (.inl ha), rfl, id', hread, rfl⟩
    · exact ⟨_, (hadded f _).mpr (.inr ⟨rfl, o, ho, rfl⟩), rfl, _, hid o, rfl⟩

theorem records_put_attributeOf (owner : DocumentId) (h : NulFree owner.datatype) {found : Document}
    {f v o : String} :
    (found.put field (attributeOf row owner field value)).Records f v o ↔
      found.Records f v o ∨ f = field ∧ v = value ∧ o = owner.owner := by
  have hadded (f : String) (a : Attribute) : a ∈ (found.put field (attributeOf row owner field value)).forField f ↔
      a ∈ found.forField f ∨
        f = field ∧ ∃ o, o = owner.owner ∧ a = attributeOf row ⟨owner.datatype, o⟩ field value := by
    rw [Document.mem_forField_put, exists_eq_left]
  exact records_of_mem_forField h hadded

/-- An entry of a value for an owner, which is that of the document or of one of its parts. -/
def IsOwn (row : Bytes) (id : DocumentId) (field value : String) (e : Entry) (owner : String) : Prop :=
  e.1 = entryKey row field value ⟨id.datatype, owner⟩ ∧ isSameOrChildOwner owner id.owner = true

/-- A look through entries of a value puts an attribute for the owner of each own one, and counts them. -/
theorem gather_spec (hvalue : NulFree value) (hdatatype : NulFree id.datatype) {rounds : Nat} {s : σ} {l : List Entry}
    (hshows : index.Shows s l) (hrounds : l.length ≤ rounds)
    (hentry : ∀ e ∈ l, ∃ owner, e.1 = entryKey row field value ⟨id.datatype, owner⟩) (found : Document)
    (count : Nat) :
    ∃ s' found' count', gather index row id field value rounds s found count = (s', .ok (found', count')) ∧
      (∀ f a, a ∈ found'.forField f ↔ a ∈ found.forField f ∨ f = field ∧
        ∃ o, (∃ e ∈ l, IsOwn row id field value e o) ∧ a = attributeOf row ⟨id.datatype, o⟩ field value) ∧
      (count' = 0 ↔ count = 0 ∧ ∀ e ∈ l, ∀ o, ¬IsOwn row id field value e o) := by
  induction rounds generalizing s l found count with
  | zero =>
    obtain rfl := List.length_eq_zero_iff.mp (Nat.le_zero.mp hrounds)
    exact ⟨s, found, count, rfl, by simp, by simp⟩
  | succ rounds ih =>
    have htop := hshows.top
    cases l with
    | nil =>
      refine ⟨s, found, count, ?_, by simp, by simp⟩
      rw [gather, htop]
      rfl
    | cons e l =>
      obtain ⟨owner, howner⟩ := hentry e (by simp)
      have hparse : parseFieldIndexQualifier e.1.qualifier = .ok ⟨id.datatype, owner⟩ :=
        parseFieldIndexQualifier_eq_ok_iff.mpr ⟨value, hvalue, hdatatype, by rw [howner, entryKey_eq]⟩
      -- the owner of an entry is the one that it is read as
      have hown (o : String) :
          IsOwn row id field value e o ↔ o = owner ∧ isSameOrChildOwner owner id.owner = true := by
        constructor
        · rintro ⟨hkey, hsame⟩
          have hread : parseFieldIndexQualifier e.1.qualifier = .ok ⟨id.datatype, o⟩ :=
            parseFieldIndexQualifier_eq_ok_iff.mpr ⟨value, hvalue, hdatatype, by rw [hkey, entryKey_eq]⟩
          obtain ⟨-, rfl⟩ := DocumentId.mk.inj (Except.ok.inj (hparse.symm.trans hread))
          exact ⟨rfl, hsame⟩
        · rintro ⟨rfl, hsame⟩
          exact ⟨howner, hsame⟩
      have hrec := ih hshows.next (Nat.le_of_succ_le_succ hrounds) fun e he => hentry e (List.mem_cons_of_mem _ he)
      cases hsame : isSameOrChildOwner owner id.owner with
      | true =>
        obtain ⟨s', found', count', hgather, hadded, hcount⟩ :=
          hrec (found.put field (attributeOf row ⟨id.datatype, owner⟩ field value)) (count + 1)
        refine ⟨s', found', count', ?_, fun f a => ?_, ?_⟩
        · rw [gather, htop]
          simpa only [List.head?_cons, hparse, hshows.fault, hsame, if_true] using hgather
        · rw [hadded, Document.mem_forField_put]
          simp only [List.tail_cons, List.mem_cons, hown, hsame, and_true, and_or_left, or_assoc, or_and_right,
            exists_or, exists_eq_left]
        · rw [hcount]
          simp only [List.forall_mem_cons, hown, hsame]
          simp
      | false =>
        obtain ⟨s', found', count', hgather, hadded, hcount⟩ := hrec found count
        refine ⟨s', found', count', ?_, fun f a => ?_, ?_⟩
        · rw [gather, htop]
          simpa only [List.head?_cons, hparse, hshows.fault, hsame, Bool.false_eq_true, if_false] using hgather
        · rw [hadded]
          simp [hown, hsame]
        · rw [hcount]
          simp [hown, hsame]

theorem parses_of_gather {rounds : Nat} {s s' : σ} {l : List Entry} (hshows : index.Shows s l)
    (hrounds : l.length ≤ rounds) {found : Document} {count : Nat} {reached : Document × Nat}
    (hgather : gather index row id field value rounds s found count = (s', .ok reached)) :
    ∀ e ∈ l, ∃ owner, parseFieldIndexQualifier e.1.qualifier = .ok owner := by
  induction rounds generalizing s l found count with
  | zero =>
    obtain rfl := List.length_eq_zero_iff.mp (Nat.le_zero.mp hrounds)
    simp
  | succ rounds ih =>
    cases l with
    | nil => simp
    | cons e l =>
      have htop : index.top s = some e := hshows.top
      rw [gather, htop] at hgather
      dsimp only at hgather
      split at hgather
      · simp at hgather
      · next owner hparse =>
        simp only [hshows.fault] at hgather
        exact List.forall_mem_cons.mpr ⟨⟨owner, hparse⟩, ih hshows.next (Nat.le_of_succ_le_succ hrounds) hgather⟩

/-- What a lookup of a value, found or missed, makes of the state. -/
structure Fetched (entries : Entries) (row : Bytes) (id : DocumentId) (field value : String)
    (s s' : LookupState σ) (isFound : Bool) : Prop where
  found : ∀ f v o, s'.found.Records f v o ↔
    s.found.Records f v o ∨ f = field ∧ v = value ∧ entries.Finds row id field value o
  isFound_iff : isFound = true ↔ ∃ o, entries.Finds row id field value o
  fetched : s'.fetched = if isFound then (field, value) :: s.fetched else s.fetched
  missed : s'.missed = if isFound then s.missed else (field, value) :: s.missed
  attributes : ∀ f a, a ∈ s'.found.forField f ↔ a ∈ s.found.forField f ∨
    f = field ∧ ∃ o, entries.Finds row id field value o ∧ a = attributeOf row ⟨id.datatype, o⟩ field value

/-- The entries that a list shows to a lookup. -/
def shownOf (entries : Entries) (row : Bytes) (id : DocumentId) (field value : String) : List Entry :=
  entries.toList.filter fun e => !(lookupRange row id field value).beforeStart e.1 &&
    Source.listShown (lookupRange row id field value) (.only (Utf8.encode (fieldIndexFamily field))) e.1

theorem mem_shownOf {entries : Entries} {e : Entry} : e ∈ shownOf entries row id field value ↔
    e ∈ entries.toList ∧ (lookupRange row id field value).contains e.1 = true := by
  rw [shownOf, List.mem_filter]
  refine and_congr_right fun _ => ?_
  constructor
  · intro h
    simp only [Source.listShown, Bool.and_eq_true] at h
    simp [KeyRange.contains, h]
  · intro h
    have hfamily := (contains_lookupRange_iff.mp h).2.1
    simp only [KeyRange.contains, Bool.and_eq_true] at h
    simp [Source.listShown, h, hfamily, FamilyFilter.only, FamilyFilter.selects]

theorem exists_owner_of_mem_shownOf {entries : Entries} (htext : entries.TextQualifiers) (hvalue : NulFree value)
    (hdatatype : NulFree id.datatype) {e : Entry} (he : e ∈ shownOf entries row id field value) :
    ∃ owner, e.1 = entryKey row field value ⟨id.datatype, owner⟩ := by
  obtain ⟨hlist, hcontains⟩ := mem_shownOf.mp he
  obtain ⟨text, htext⟩ := htext e hlist field (contains_lookupRange_iff.mp hcontains).2.1
  exact (exists_owner_of_contains hvalue hdatatype hcontains htext).imp fun _ h => h.1

theorem exists_isOwn_iff {entries : Entries} {owner : String} :
    (∃ e ∈ shownOf entries row id field value, IsOwn row id field value e owner) ↔
      entries.Finds row id field value owner := by
  constructor
  · rintro ⟨⟨key, v⟩, he, hkey, hsame⟩
    obtain rfl : key = _ := hkey
    exact ⟨isSameOrChildOwner_iff.mp hsame, SortedMap.contains_iff.mpr ⟨v, (mem_shownOf.mp he).1⟩⟩
  · rintro ⟨hsame, hcontains⟩
    have hsame := isSameOrChildOwner_iff.mpr hsame
    obtain ⟨v, hv⟩ := SortedMap.contains_iff.mp hcontains
    exact ⟨_, mem_shownOf.mpr ⟨hv, contains_entryKey hsame⟩, rfl, hsame⟩

section Serves

variable {entries : Entries} (hserves : index.Serves entries Source.listShown) (hvalue : NulFree value)
  (hdatatype : NulFree id.datatype)
include hserves

theorem shows_shownOf (s : LookupState σ) : index.Shows (index.seek (lookupRange row id field value)
    (.only (Utf8.encode (fieldIndexFamily field))) s.walk).state (shownOf entries row id field value) :=
  hserves.shows_seek _ _ _

theorem length_shownOf_le : (shownOf entries row id field value).length ≤ index.size + 1 :=
  Nat.le_succ_of_le (Nat.le_trans (List.length_filter_le _ _) hserves.size_le)

include hvalue hdatatype

theorem fetch_of_shown (hentry : ∀ e ∈ shownOf entries row id field value, ∃ owner,
      e.1 = entryKey row field value ⟨id.datatype, owner⟩) (s : LookupState σ) :
    ∃ s' isFound, fetch index row id field value s = (s', .ok isFound) ∧
      Fetched entries row id field value s s' isFound := by
  obtain ⟨walk, found', count', hgather, hadded, hcount⟩ :=
    gather_spec hvalue hdatatype (shows_shownOf hserves s) (length_shownOf_le hserves) hentry s.found 0
  simp only [exists_isOwn_iff] at hadded
  have hrecords (f v o : String) := records_of_mem_forField hdatatype hadded (f := f) (v := v) (o := o)
  have hcount : count' = 0 ↔ ∀ o, ¬entries.Finds row id field value o := by
    rw [hcount]
    simp only [← exists_isOwn_iff, true_and]
    constructor
    · rintro h o ⟨e, he, hown⟩
      exact h e he o hown
    · intro h e he o hown
      exact h o ⟨e, he, hown⟩
  by_cases hzero : count' = 0
  · refine ⟨⟨walk, found', s.fetched, (field, value) :: s.missed⟩, false, ?_, hrecords, ?_, rfl, rfl, hadded⟩
    · simp only [fetch, hserves.fault, hgather, hzero, if_true]
    · simpa using hcount.mp hzero
  · refine ⟨⟨walk, found', (field, value) :: s.fetched, s.missed⟩, true, ?_, hrecords, ?_, rfl, rfl, hadded⟩
    · simp only [fetch, hserves.fault, hgather, hzero, if_false]
    · simpa [not_forall] using mt hcount.mpr hzero

theorem fetch_spec (htext : entries.TextQualifiers) (s : LookupState σ) :
    ∃ s' isFound, fetch index row id field value s = (s', .ok isFound) ∧
      Fetched entries row id field value s s' isFound :=
  fetch_of_shown hserves hvalue hdatatype (fun _ he => exists_owner_of_mem_shownOf htext hvalue hdatatype he) s

omit hvalue hdatatype in
theorem gather_of_fetch {s s' : LookupState σ} {isFound : Bool}
    (hfetch : fetch index row id field value s = (s', .ok isFound)) :
    ∃ reached, gather index row id field value (index.size + 1) (index.seek (lookupRange row id field value)
      (.only (Utf8.encode (fieldIndexFamily field))) s.walk).state s.found 0 = (s'.walk, .ok reached) := by
  simp only [fetch, hserves.fault] at hfetch
  split at hfetch
  · simp at hfetch
  · next walk found count hgather =>
    refine ⟨(found, count), hgather.trans ?_⟩
    split at hfetch
    · obtain ⟨rfl, -⟩ := Prod.mk.inj hfetch
      rfl
    · obtain ⟨rfl, -⟩ := Prod.mk.inj hfetch
      rfl

/-- A lookup that did not fail finds what the entries say, whatever qualifiers there are elsewhere. -/
theorem fetched_of_fetch {s s' : LookupState σ} {isFound : Bool}
    (hfetch : fetch index row id field value s = (s', .ok isFound)) :
    Fetched entries row id field value s s' isFound := by
  obtain ⟨reached, hgather⟩ := gather_of_fetch hserves hfetch
  have hread := parses_of_gather (shows_shownOf hserves s) (length_shownOf_le hserves) hgather
  have hentry : ∀ e ∈ shownOf entries row id field value, ∃ owner,
      e.1 = entryKey row field value ⟨id.datatype, owner⟩ := by
    intro e he
    obtain ⟨owner, howner⟩ := hread e he
    obtain ⟨_, -, -, htext⟩ := parseFieldIndexQualifier_eq_ok_iff.mp howner
    exact (exists_owner_of_contains hvalue hdatatype (mem_shownOf.mp he).2 htext).imp fun _ h => h.1
  obtain ⟨s₁, isFound₁, hfetch₁, hfetched⟩ := fetch_of_shown hserves hvalue hdatatype hentry s
  obtain ⟨rfl, hsame⟩ := Prod.mk.inj (hfetch.symm.trans hfetch₁)
  obtain rfl := Except.ok.inj hsame
  exact hfetched

end Serves

end Fetch

/-! ## Lookups over a list -/

theorem bounded_serves_listShown {σ : Type} {index : Source σ} {entries : Entries}
    (h : index.Serves entries Source.listShown) : index.bounded.Serves entries Source.listShown := by
  refine (Source.bounded_serves h).congr fun range filter key => ?_
  simp only [Source.listShown]
  cases range.afterEnd key <;> rfl

/-- Over a list whose qualifiers are texts a lookup succeeds, whatever was looked up before. It adds one attribute for
each entry of the value whose owner is the document or a part of it at any depth, and no other, and reports a miss if
there is none. -/
theorem fetch_finds_own {entries : Entries} (htext : entries.TextQualifiers) {family : Bytes} {id : DocumentId}
    (hfamily : DocumentId.parse family = .ok id) (row : Bytes) (field : String) {value : String}
    (hvalue : NulFree value) (s : LookupState (BoundedState (Stack.list entries).State)) :
    ∃ s' isFound, fetch (Stack.list entries).source.bounded row id field value s = (s', .ok isFound) ∧
      ∃ owns : String → Prop,
        (∀ o, owns o ↔ (o = id.owner ∨ ∃ rest, o = id.owner ++ "." ++ rest) ∧
          entries.contains (entryKey row field value ⟨id.datatype, o⟩) = true) ∧
        (∀ f a, a ∈ s'.found.forField f ↔ a ∈ s.found.forField f ∨
          f = field ∧ ∃ o, owns o ∧ a = attributeOf row ⟨id.datatype, o⟩ field value) ∧
        (∀ f v o, s'.found.Records f v o ↔ s.found.Records f v o ∨ f = field ∧ v = value ∧ owns o) ∧
        (isFound = false ↔ ∀ o, ¬owns o) := by
  have hserves : (Stack.list entries).source.bounded.Serves entries Source.listShown :=
    bounded_serves_listShown (Source.ofEntries_serves entries)
  have hdatatype : NulFree id.datatype := (DocumentId.parse_eq_ok_iff.mp hfamily).1
  obtain ⟨s', isFound, hfetch, hfetched⟩ : ∃ s' isFound,
      fetch (Stack.list entries).source.bounded row id field value s = (s', .ok isFound) ∧
        Fetched entries row id field value s s' isFound :=
    fetch_spec hserves hvalue hdatatype htext s
  refine ⟨s', isFound, hfetch, entries.Finds row id field value, fun o => Iff.rfl, hfetched.attributes,
    hfetched.found, ?_⟩
  rw [← not_exists, ← hfetched.isFound_iff, Bool.not_eq_true]

/-- An index with a value for a part of a part of a document, and for another document whose name starts alike. -/
def siblingIndex : FieldIndex :=
  ((∅ : FieldIndex).insertFieldIndex "row" "BODY" "fox" ⟨"doc", "uid0.1.2"⟩).insertFieldIndex "row" "BODY" "fox"
    ⟨"doc", "uid01"⟩

/-- The value is found for the part, and not for the other document. -/
theorem fetch_finds_own_sibling : siblingIndex.snapshot.TextQualifiers ∧ NulFree "fox" ∧
    DocumentId.parse (DocumentId.family ⟨"doc", "uid0"⟩) = .ok ⟨"doc", "uid0"⟩ ∧
    ∃ s', fetch (Stack.list siblingIndex.snapshot).source.bounded (Utf8.encode "row") ⟨"doc", "uid0"⟩ "BODY" "fox"
        ⟨(Stack.list siblingIndex.snapshot).source.bounded.fresh, ∅, [], []⟩ = (s', .ok true) ∧
      s'.found.Records "BODY" "fox" "uid0.1.2" ∧ ¬s'.found.Records "BODY" "fox" "uid01" := by
  have htext : siblingIndex.snapshot.TextQualifiers :=
    (Entries.textQualifiers_empty.insert _ _ _ _).insert _ _ _ _
  have hvalue : NulFree "fox" := by decide
  have hfamily : DocumentId.parse (DocumentId.family ⟨"doc", "uid0"⟩) = .ok ⟨"doc", "uid0"⟩ :=
    DocumentId.parse_eq_ok_iff.mpr ⟨by decide, rfl⟩
  obtain ⟨s', isFound, hfetch, owns, howns, -, hrecords, hmiss⟩ := fetch_finds_own htext hfamily (Utf8.encode "row")
    "BODY" hvalue ⟨(Stack.list siblingIndex.snapshot).source.bounded.fresh, ∅, [], []⟩
  have hpart : owns "uid0.1.2" := by
    refine (howns _).mpr ⟨.inr ⟨"1.2", by decide⟩, ?_⟩
    exact SortedMap.contains_insert.mpr (.inr (SortedMap.contains_insert.mpr (.inl rfl)))
  have hsibling : ¬owns "uid01" := by
    intro h
    exact absurd (isSameOrChildOwner_iff.mpr ((howns _).mp h).1) (by decide)
  have hfound : isFound = true := by
    cases isFound with
    | true => rfl
    | false => exact absurd hpart (hmiss.mp rfl _)
  subst hfound
  refine ⟨htext, hvalue, hfamily, s', hfetch, (hrecords _ _ _).mpr (.inr ⟨rfl, rfl, hpart⟩), fun h => ?_⟩
  rcases (hrecords _ _ _).mp h with h | ⟨-, -, h⟩
  · exact Document.not_records_empty _ _ _ h
  · exact hsibling h

end NegatedLookup

end ProximitySearch
