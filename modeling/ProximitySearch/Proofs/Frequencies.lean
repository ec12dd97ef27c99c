import ProximitySearch.Engine
import ProximitySearch.FieldIndex
import ProximitySearch.Proofs.Names
import ProximitySearch.Proofs.SkipScan

/-!
# Term frequencies

A question for term frequencies reads the entries whose qualifiers are the hits asked for, in one skip scan
from the first hit to the last. The scan leaves out none of them and shows nothing else
(`exists_scanned`), and each entry is read back as the hit that it was found by, so the answer is what the
index holds at the hits (`termFrequencies_exact`). Hits of other documents are refused before the index is
asked.
-/

namespace ProximitySearch

open Std

/-! ## Keys of one row and family -/

theorem KeyRange.contains_closed_iff {row family first last : Bytes} {key : Key} :
    (KeyRange.closed ⟨row, family, first⟩ ⟨row, family, last⟩).contains key = true ↔
      key.row = row ∧ key.family = family ∧
        (compare first key.qualifier).isLE ∧ (compare key.qualifier last).isLE := by
  have hswap : compare first key.qualifier = (compare key.qualifier first).swap := OrientedCmp.eq_swap
  simp only [contains, closed, beforeStart, afterEnd, Key.compare_eq, Bool.and_eq_true, Bool.not_eq_true', hswap]
  constructor
  · intro h
    -- where a component differs, the key is outside at one of the two ends
    cases hrow : compare key.row row with
    | lt => simp [hrow] at h
    | gt => simp [hrow] at h
    | eq =>
      cases hfamily : compare key.family family with
      | lt => simp [hrow, hfamily] at h
      | gt => simp [hrow, hfamily] at h
      | eq =>
        refine ⟨LawfulEqCmp.eq_of_compare hrow, LawfulEqCmp.eq_of_compare hfamily, ?_⟩
        simp only [hrow, hfamily, Ordering.then] at h
        cases hfirst : compare key.qualifier first <;> cases hlast : compare key.qualifier last <;> simp_all
  · intro h
    obtain ⟨rfl, rfl, hfirst, hlast⟩ := h
    simp only [ReflCmp.compare_self, Ordering.then]
    cases hfirst' : compare key.qualifier first <;> cases hlast' : compare key.qualifier last <;> simp_all

/-! ## Hits -/

namespace Hit

/-- A hit is of a document if it has the document's datatype, and its owner is that of the document or extends it by a
dot and more. -/
def IsOf (hit : Hit) (id : DocumentId) : Prop :=
  hit.datatype = id.datatype ∧ (hit.owner = id.owner ∨ ∃ rest, hit.owner = id.owner ++ "." ++ rest)

end Hit

namespace Engine

/-! ## Reading -/

section Read

variable {σ : Type} {index : Source σ}

theorem readFrequencies_spec {s : σ} {l : List Entry} (hshows : index.Shows s l)
    (hparse : ∀ e ∈ l, ∃ hit, Hit.parse e.1.qualifier = .ok hit) {rounds : Nat} (hrounds : l.length ≤ rounds) :
    ∃ last pairs, readFrequencies index rounds s = (last, .ok pairs) ∧
      pairs.map (fun p => (p.1.bytes, p.2)) = l.map fun e => (e.1.qualifier, e.2) := by
  induction rounds generalizing s l with
  | zero =>
    obtain rfl := List.length_eq_zero_iff.mp (Nat.le_zero.mp hrounds)
    exact ⟨s, [], rfl, rfl⟩
  | succ rounds ih =>
    have htop := hshows.top
    cases l with
    | nil =>
      refine ⟨s, [], ?_, rfl⟩
      rw [readFrequencies, htop]
      rfl
    | cons e l =>
      obtain ⟨hit, hhit⟩ := hparse e (by simp)
      obtain ⟨last, pairs, hread, hpairs⟩ := ih hshows.next (fun e he => hparse e (List.mem_cons_of_mem _ he))
        (Nat.le_of_succ_le_succ hrounds)
      refine ⟨last, (hit, e.2) :: pairs, ?_, ?_⟩
      · rw [readFrequencies, htop]
        simp only [List.head?_cons, hhit, hshows.fault, hread]
        rfl
      · rw [List.map_cons, List.map_cons, hpairs, (Hit.parse_eq_ok_iff.mp hhit).1]
        rfl

end Read

/-! ## The scan -/

/-- The key of the entry that holds the frequency of a hit. -/
def frequencyKey (e : Engine) (row : Bytes) (hit : Hit) : Key :=
  ⟨row, Utf8.encode e.config.termFrequencyFamily, hit.bytes⟩

section Scan

variable (e : Engine) (row : Bytes) {hits : SortedSet Hit} {first last : Hit}

/-- From the first hit to the last a scan for the hits shows the entries at their keys. -/
theorem exists_scanned (entries : Entries) (hfirst : hits.first? = some first) (hlast : hits.last? = some last) :
    let index := (Source.ofEntries entries).journaled.skipScan (.ofList (hits.toList.map Hit.bytes))
      (Utf8.encode e.config.termFrequencyFamily)
    let sought := index.seek (.closed (e.frequencyKey row first) (e.frequencyKey row last)) ⟨[], true⟩ index.fresh
    sought.fault = none ∧ ∃ l, index.Shows sought.state l ∧ l.length ≤ index.size ∧ Ascending l ∧
      ∀ entry, entry ∈ l ↔ entry ∈ entries.toList ∧ ∃ hit ∈ hits, entry.1 = e.frequencyKey row hit := by
  intro index sought
  have hserves := Source.skipScan_serves (Source.journaled_serves (Source.ofEntries_serves entries))
    (.ofList (hits.toList.map Hit.bytes)) (Utf8.encode e.config.termFrequencyFamily)
  refine ⟨hserves.fault _ _ _, _, hserves.shows_seek _ _ _, List.length_filter_le _ _,
    entries.ascending.sublist List.filter_sublist, fun entry => ?_⟩
  rw [List.mem_filter]
  apply and_congr_right
  intro _
  constructor
  · intro h
    simp only [Source.listShown, Bool.and_eq_true, decide_eq_true_eq, SortedSet.mem_ofList, List.mem_map] at h
    obtain ⟨hstart, -, hend, hit, hhit, hqualifier⟩ := h
    have hcontains : (KeyRange.closed (e.frequencyKey row first) (e.frequencyKey row last)).contains entry.1 := by
      rw [KeyRange.contains, hstart, hend]
      rfl
    obtain ⟨hrow, hfamily, -⟩ := KeyRange.contains_closed_iff.mp hcontains
    refine ⟨hit, hhit, ?_⟩
    rw [frequencyKey, ← hrow, ← hfamily, hqualifier]
  · intro h
    obtain ⟨hit, hhit, hkey⟩ := h
    have hlow : (compare first hit).isLE := SortedSet.isLE_first? hfirst hhit
    have hhigh : (compare hit last).isLE := SortedSet.isLE_last? hlast hhit
    have hcontains : (KeyRange.closed (e.frequencyKey row first) (e.frequencyKey row last)).contains entry.1 := by
      rw [hkey]
      exact KeyRange.contains_closed_iff.mpr ⟨rfl, rfl, hlow, hhigh⟩
    simp only [KeyRange.contains, Bool.and_eq_true] at hcontains
    have hcandidate : entry.1.qualifier ∈ SortedSet.ofList (hits.toList.map Hit.bytes) := by
      rw [hkey, SortedSet.mem_ofList]
      exact List.mem_map.mpr ⟨hit, hhit, rfl⟩
    have hfamily : entry.1.family = Utf8.encode e.config.termFrequencyFamily := by
      rw [hkey]
      rfl
    simp [Source.listShown, hcontains, hcandidate, hfamily, FamilyFilter.only, FamilyFilter.selects]

end Scan

/-! ## Answers -/

theorem foreignHit?_eq_none_iff {hits : SortedSet Hit} {id : DocumentId} :
    foreignHit? hits id = none ↔ ∀ hit ∈ hits, hit.IsOf id := by
  rw [foreignHit?, List.find?_eq_none]
  apply forall₂_congr
  intro hit _
  simp [Hit.IsOf, isSameOrChildOwner_iff]

section Pairs

variable {e : Engine} {row : Bytes} {hits : SortedSet Hit} {entries : Entries} {l : List Entry}
  {pairs : List (Hit × Bytes)} (hsame : pairs.map (fun p => (p.1.bytes, p.2)) = l.map fun e => (e.1.qualifier, e.2))
include hsame

theorem mem_read_iff {hit : Hit} {value : Bytes} :
    (hit, value) ∈ pairs ↔ ∃ entry ∈ l, entry.1.qualifier = hit.bytes ∧ entry.2 = value := by
  have hleft : (hit, value) ∈ pairs ↔ (hit.bytes, value) ∈ pairs.map fun p => (p.1.bytes, p.2) := by
    simp [Hit.bytes_inj]
  rw [hleft, hsame]
  simp

variable (hsorted : Ascending l)
  (hmem : ∀ entry, entry ∈ l ↔ entry ∈ entries.toList ∧ ∃ hit ∈ hits, entry.1 = e.frequencyKey row hit)
include hsorted hmem

/-- No hit is read twice: the row and the family are the same for all entries, so their qualifiers differ. -/
theorem read_distinct : pairs.Pairwise fun a b => a.1 ≠ b.1 := by
  have hqualifier : l.Pairwise fun a b => a.1.qualifier ≠ b.1.qualifier := by
    refine hsorted.imp_of_mem fun ha hb hlt heq => ?_
    obtain ⟨-, hit, -, hat⟩ := (hmem _).mp ha
    obtain ⟨-, hit', -, hat'⟩ := (hmem _).mp hb
    rw [hat, hat'] at heq hlt
    rw [Hit.bytes_inj.mp heq] at hlt
    simp at hlt
  have hbytes : (l.map fun e => (e.1.qualifier, e.2)).Pairwise fun a b => a.1 ≠ b.1 := List.pairwise_map.mpr hqualifier
  rw [← hsame, List.pairwise_map] at hbytes
  exact hbytes.imp fun hne heq => hne (congrArg Hit.bytes heq)

theorem get?_read (hit : Hit) (value : Bytes) : (SortedMap.ofList pairs).get? hit = some value ↔
    hit ∈ hits ∧ entries.get? (e.frequencyKey row hit) = some value := by
  rw [SortedMap.get?_ofList (read_distinct hsame hsorted hmem), SortedMap.get?_eq_some_iff, mem_read_iff hsame]
  constructor
  · intro h
    obtain ⟨entry, hentry, hqualifier, rfl⟩ := h
    obtain ⟨hlist, hit', hhit', hat⟩ := (hmem entry).mp hentry
    obtain rfl : hit' = hit := by
      rw [hat] at hqualifier
      exact Hit.bytes_inj.mp hqualifier
    have hentry : entry = (e.frequencyKey row hit', entry.2) := Prod.ext hat rfl
    rw [hentry] at hlist
    exact ⟨hhit', hlist⟩
  · intro h
    exact ⟨_, (hmem _).mpr ⟨h.2, hit, h.1, rfl⟩, rfl, rfl⟩

end Pairs

/-- Over a list the frequencies of hits that can be read are the values of the entries at the hits, if all of the hits
are of the document; otherwise an argument is refused. -/
theorem termFrequencies_exact {e : Engine} {entries : Entries} (hsource : e.source = some (.list entries)) {key : Key}
    {id : DocumentId} (hkey : key.documentId = .ok id) {hits : SortedSet Hit} (hne : hits.isEmpty = false)
    (hparse : ∀ hit ∈ hits, ∃ parsed, Hit.parse hit.bytes = .ok parsed) :
    ((∀ hit ∈ hits, hit.IsOf id) → ∃ frequencies, (e.termFrequencies key hits).outcome = .ok frequencies ∧
      ∀ hit value, frequencies.get? hit = some value ↔
        hit ∈ hits ∧ entries.get? ⟨key.row, Utf8.encode e.config.termFrequencyFamily, hit.bytes⟩ = some value) ∧
    ((∃ hit ∈ hits, ¬hit.IsOf id) →
      ∃ fault, (e.termFrequencies key hits).outcome = .error (.invalidArgument fault)) := by
  have hcons : hits.toList ≠ [] := List.isEmpty_eq_false_iff.mp hne
  obtain ⟨first, hfirst⟩ : ∃ first, hits.first? = some first := ⟨_, List.head?_eq_some_head hcons⟩
  obtain ⟨last, hlast⟩ : ∃ last, hits.last? = some last := ⟨_, List.getLast?_eq_some_getLast hcons⟩
  constructor
  · intro hown
    have hforeign := foreignHit?_eq_none_iff.mpr hown
    obtain ⟨hfault, l, hshows, hlength, hsorted, hmem⟩ := exists_scanned e key.row entries hfirst hlast
    have hread : ∀ entry ∈ l, ∃ hit, Hit.parse entry.1.qualifier = .ok hit := by
      intro entry hentry
      obtain ⟨-, hit, hhit, hat⟩ := (hmem entry).mp hentry
      rw [hat]
      exact hparse hit hhit
    obtain ⟨walk, pairs, hpairs, hsame⟩ := readFrequencies_spec hshows hread (Nat.le_succ_of_le hlength)
    refine ⟨.ofList pairs, ?_, get?_read hsame hsorted hmem⟩
    simp only [termFrequencies, hfirst, hlast, hkey, hforeign, hsource]
    split
    · next fault hsome => exact absurd (hfault.symm.trans hsome) (by simp)
    · exact congrArg (fun reply => reply.2.map SortedMap.ofList) hpairs
  · intro hforeign
    obtain ⟨hit, hhit, hnot⟩ := hforeign
    cases hfound : foreignHit? hits id with
    | none => exact absurd (foreignHit?_eq_none_iff.mp hfound hit hhit) hnot
    | some foreign =>
      refine ⟨.foreignHit foreign.text id.datatype id.owner, ?_⟩
      simp only [termFrequencies, hfirst, hlast, hkey, hfound]

def wholeHit : Hit := .ofParts ⟨"doc", "uid0"⟩ "cat" "BODY"

def partHit : Hit := .ofParts ⟨"doc", "uid0.1"⟩ "cat" "BODY"

/-- Its index holds a frequency for the hit in the part of the document, and none for that in the document. -/
def partFrequencies : Engine :=
  ⟨∅, .standard, some (.list ((∅ : FieldIndex).insertTermFrequency "row" partHit [7]).snapshot)⟩

def wholeKey : Key := ⟨Utf8.encode "row", DocumentId.family ⟨"doc", "uid0"⟩, []⟩

/-- The frequency of the part is found from the key of the document, and the document's own is not made up. -/
theorem termFrequencies_exact_part :
    partFrequencies.source = some (.list ((∅ : FieldIndex).insertTermFrequency "row" partHit [7]).snapshot) ∧
    wholeKey.documentId = .ok ⟨"doc", "uid0"⟩ ∧ (SortedSet.ofList [wholeHit, partHit]).isEmpty = false ∧
    (∀ hit ∈ SortedSet.ofList [wholeHit, partHit], ∃ parsed, Hit.parse hit.bytes = .ok parsed) ∧
    ∃ frequencies, (partFrequencies.termFrequencies wholeKey (.ofList [wholeHit, partHit])).outcome = .ok frequencies ∧
      frequencies.get? partHit = some [7] ∧ frequencies.get? wholeHit = none := by
  have hkey : wholeKey.documentId = .ok ⟨"doc", "uid0"⟩ := DocumentId.parse_eq_ok_iff.mpr ⟨by decide, rfl⟩
  have hmem (hit : Hit) : hit ∈ SortedSet.ofList [wholeHit, partHit] ↔ hit = wholeHit ∨ hit = partHit := by
    simp
  have hne : (SortedSet.ofList [wholeHit, partHit]).isEmpty = false := by decide
  have hparse : ∀ hit ∈ SortedSet.ofList [wholeHit, partHit], ∃ parsed, Hit.parse hit.bytes = .ok parsed := by
    intro hit hhit
    refine ⟨hit, Hit.parse_bytes_iff.mpr ?_⟩
    rcases (hmem hit).mp hhit with rfl | rfl
    · decide
    · decide
  have hown : ∀ hit ∈ SortedSet.ofList [wholeHit, partHit], hit.IsOf ⟨"doc", "uid0"⟩ := by
    intro hit hhit
    rcases (hmem hit).mp hhit with rfl | rfl
    · exact ⟨by decide, .inl (by decide)⟩
    · exact ⟨by decide, .inr ⟨"1", by decide⟩⟩
  have hsource : partFrequencies.source =
      some (.list ((∅ : FieldIndex).insertTermFrequency "row" partHit [7]).snapshot) := rfl
  obtain ⟨frequencies, hok, hexact⟩ := (termFrequencies_exact hsource hkey hne hparse).1 hown
  refine ⟨hsource, hkey, hne, hparse, frequencies, hok, (hexact _ _).mpr ⟨(hmem _).mpr (.inr rfl), by decide⟩, ?_⟩
  have habsent : ((∅ : FieldIndex).insertTermFrequency "row" partHit [7]).snapshot.get?
      ⟨wholeKey.row, Utf8.encode partFrequencies.config.termFrequencyFamily, wholeHit.bytes⟩ = none := by decide
  refine Option.eq_none_iff_forall_ne_some.mpr fun value hvalue => ?_
  exact absurd (habsent.symm.trans ((hexact _ _).mp hvalue).2) (by simp)

end Engine

end ProximitySearch
