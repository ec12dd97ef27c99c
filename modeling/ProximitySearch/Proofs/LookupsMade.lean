import ProximitySearch.Engine
import ProximitySearch.Proofs.OwnEntries

/-!
# Lookups that are made

The lookups for negated functions in order, each with the function that it is made for and its outcome
(`probes`), are a run: each is due at the state that those before it lead to (`Due`, `Run`, `run_fetchAll`).
A pair that was looked up is in one of the two caches from then on. If it was found, it is not due again. If it was
missed, no function that has the value is due in its field again, and so the pair itself is not either, though
nothing checks it on its own (`Due.apart`).

Each lookup seeks once, in a range of its own, so the seeks on record are the lookups made (`Run.requests`,
`document_looksUpOnce`).
-/

namespace ProximitySearch

open Proximity

/-- A lookup of a value in a field for a function, and whether the value was found. -/
structure Probe where
  function : Descriptor
  field : String
  value : String
  outcome : Except SearchError Bool

namespace NegatedLookup

/-! ## The lookups in order -/

section Probes

variable {σ : Type} (index : Source σ) (row : Bytes) (id : DocumentId)

/-- Lookups of the values of a function in a field. -/
def valueProbes (d : Descriptor) (field : String) : (values : List String) → LookupState σ → List Probe
  | [], _ => []
  | value :: others, s =>
    if s.fetched.contains (field, value) then valueProbes d field others s
    else
      ⟨d, field, value, (fetch index row id field value s).2⟩ ::
        match fetch index row id field value s with
        | (_, .error _) => []
        | (_, .ok false) => []
        | (s, .ok true) => valueProbes d field others s

/-- Lookups of the values of a function in its fields. -/
def fieldProbes (d : Descriptor) : (fields : List String) → LookupState σ → List Probe
  | [], _ => []
  | field :: others, s =>
    if d.values.toList.any fun value => s.missed.contains (field, value) then fieldProbes d others s
    else
      valueProbes index row id d field d.values.toList s ++
        match fetchValues index row id field d.values.toList s with
        | (_, .error _) => []
        | (s, .ok ()) => fieldProbes d others s

/-- Lookups of the values of functions. -/
def probes : (functions : List Descriptor) → LookupState σ → List Probe
  | [], _ => []
  | d :: others, s =>
    fieldProbes index row id d d.fields.toList s ++
      match fetchFields index row id d.values.toList d.fields.toList s with
      | (_, .error _) => []
      | (s, .ok ()) => probes others s

end Probes

/-! ## Requests -/

/-- What a lookup asks the index for. -/
def requestOf (row : Bytes) (id : DocumentId) (field value : String) : KeyRange × FamilyFilter :=
  (lookupRange row id field value, .only (Utf8.encode (fieldIndexFamily field)))

theorem requests_fetch {σ : Type} (index : Source σ) (row : Bytes) (id : DocumentId) (field value : String)
    (s : LookupState (BoundedState (JournalState σ))) :
    Source.requests (fetch index.journaled.bounded row id field value s).1.walk.below =
      Source.requests s.walk.below ++ [requestOf row id field value] := by
  let Made (w : BoundedState (JournalState σ)) : Prop :=
    Source.requests w.below = Source.requests s.walk.below ++ [requestOf row id field value]
  have hnext (w : BoundedState (JournalState σ)) (hw : Made w) : Made (index.journaled.bounded.next w).state := by
    simp only [Source.bounded]
    split
    · exact hw
    · exact hw
  exact fetch_walk_invariant (P := Made) hnext (Source.requests_seek ..)

theorem lookupRange_inj {row : Bytes} {id : DocumentId} {field value field' value' : String}
    (h : lookupRange row id field value = lookupRange row id field' value') : field = field' ∧ value = value' := by
  have hkey : entryKey row field value id = entryKey row field' value' id := by
    rw [entryKey_eq, entryKey_eq]
    exact Bound.inclusive.inj (congrArg KeyRange.start h)
  obtain ⟨-, hfamily, hqualifier⟩ := Key.mk.inj hkey
  refine ⟨(String.append_right_inj _).mp (Utf8.encode_inj.mp hfamily), ?_⟩
  -- both qualifiers end with the name of the document
  have htext := Utf8.encode_inj.mp hqualifier
  simpa only [String.append_left_inj] using htext

/-! ## Runs -/

section Run

variable {σ : Type} {index : Source σ} {row : Bytes} {id : DocumentId} {functions : List Descriptor}

/-- A lookup is due at a state if its function requires it, it was not fetched, and none of the values of the function
is known to be missing in its field. -/
structure Due (functions : List Descriptor) (s : LookupState σ) (p : Probe) : Prop where
  function : p.function ∈ functions
  requires : p.function.Requires p.field p.value
  fetched : (p.field, p.value) ∉ s.fetched
  missed : ∀ w ∈ p.function.values, (p.field, w) ∉ s.missed

/-- Lookups lead from a state to a result, each due at the state that those before it lead to. The first that fails is
the last. -/
inductive Run (index : Source σ) (row : Bytes) (id : DocumentId) (functions : List Descriptor) :
    LookupState σ → List Probe → LookupState σ × Except SearchError Unit → Prop where
  | done (s : LookupState σ) : Run index row id functions s [] (s, .ok ())
  | failed {s s' : LookupState σ} {p : Probe} {error : SearchError} (hdue : Due functions s p)
      (hfetch : fetch index row id p.field p.value s = (s', .error error)) (houtcome : p.outcome = .error error) :
      Run index row id functions s [p] (s', .error error)
  | looked {s s' : LookupState σ} {p : Probe} {isFound : Bool} {log : List Probe}
      {result : LookupState σ × Except SearchError Unit} (hdue : Due functions s p)
      (hfetch : fetch index row id p.field p.value s = (s', .ok isFound)) (houtcome : p.outcome = .ok isFound)
      (hrest : Run index row id functions s' log result) : Run index row id functions s (p :: log) result

theorem Run.append {s s' : LookupState σ} {log log' : List Probe} {result : LookupState σ × Except SearchError Unit}
    (h : Run index row id functions s log (s', .ok ())) (h' : Run index row id functions s' log' result) :
    Run index row id functions s (log ++ log') result := by
  generalize hend : (s', Except.ok ()) = reached at h
  induction h with
  | done =>
    obtain ⟨rfl, -⟩ := Prod.mk.inj hend
    exact h'
  | failed => simp at hend
  | looked hdue hfetch houtcome _ ih => exact .looked hdue hfetch houtcome (ih hend)

theorem run_fetchValues {d : Descriptor} (hd : d ∈ functions) {field : String} (hfield : field ∈ d.fields)
    {values : List String} (hvalues : ∀ value ∈ values, value ∈ d.values) {s : LookupState σ}
    (hmissed : ∀ w ∈ d.values, (field, w) ∉ s.missed) :
    Run index row id functions s (valueProbes index row id d field values s)
      (fetchValues index row id field values s) := by
  induction values generalizing s with
  | nil => exact .done s
  | cons value others ih =>
    obtain ⟨hvalue, hothers⟩ := List.forall_mem_cons.mp hvalues
    rw [valueProbes, fetchValues]
    by_cases hfetched : (field, value) ∈ s.fetched
    · rw [if_pos (List.contains_iff_mem.mpr hfetched), if_pos hfetched]
      exact ih hothers hmissed
    · rw [if_neg (mt List.contains_iff_mem.mp hfetched), if_neg hfetched]
      have hdue (outcome : Except SearchError Bool) : Due functions s ⟨d, field, value, outcome⟩ :=
        ⟨hd, ⟨hfield, hvalue⟩, hfetched, hmissed⟩
      rcases hfetch : fetch index row id field value s with ⟨s', outcome⟩
      cases outcome with
      | error error => exact .failed (hdue _) hfetch rfl
      | ok isFound =>
        cases isFound with
        | false => exact .looked (hdue _) hfetch rfl (.done s')
        | true =>
          have hcaches := caches_of_fetch hfetch
          exact .looked (hdue _) hfetch rfl (ih hothers (by rwa [hcaches.2]))

theorem run_fetchFields {d : Descriptor} (hd : d ∈ functions) {fields : List String}
    (hfields : ∀ field ∈ fields, field ∈ d.fields) (s : LookupState σ) :
    Run index row id functions s (fieldProbes index row id d fields s)
      (fetchFields index row id d.values.toList fields s) := by
  induction fields generalizing s with
  | nil => exact .done s
  | cons field others ih =>
    obtain ⟨hfield, hothers⟩ := List.forall_mem_cons.mp hfields
    rw [fieldProbes, fetchFields]
    by_cases hspared : ∃ w ∈ d.values.toList, (field, w) ∈ s.missed
    · rw [if_pos (by simpa using hspared), if_pos (by simpa using hspared)]
      exact ih hothers s
    · rw [if_neg (by simpa using hspared), if_neg (by simpa using hspared)]
      have hmissed : ∀ w ∈ d.values, (field, w) ∉ s.missed := fun w hw hmem => hspared ⟨w, hw, hmem⟩
      have hrun : Run index row id functions s (valueProbes index row id d field d.values.toList s) _ :=
        run_fetchValues hd hfield (fun value hvalue => hvalue) hmissed
      rcases hvalues : fetchValues index row id field d.values.toList s with ⟨s', outcome⟩
      rw [hvalues] at hrun
      cases outcome with
      | error e => simpa using hrun
      | ok => exact hrun.append (ih hothers s')

/-- The lookups of functions are a run of them, from every state. -/
theorem run_fetchAll {descriptors : List Descriptor} (hfunctions : ∀ d ∈ descriptors, d ∈ functions)
    (s : LookupState σ) :
    Run index row id functions s (probes index row id descriptors s) (fetchAll index row id descriptors s) := by
  induction descriptors generalizing s with
  | nil => exact .done s
  | cons d others ih =>
    obtain ⟨hd, hothers⟩ := List.forall_mem_cons.mp hfunctions
    have hrun : Run index row id functions s (fieldProbes index row id d d.fields.toList s) _ :=
      run_fetchFields hd (fun field hfield => hfield) s
    rw [probes, fetchAll]
    rcases hfields : fetchFields index row id d.values.toList d.fields.toList s with ⟨s', outcome⟩
    rw [hfields] at hrun
    cases outcome with
    | error e => simpa using hrun
    | ok => exact hrun.append (ih hothers s')

theorem Due.of_fetch {s s' : LookupState σ} {p : Probe} {field value : String} {isFound : Bool}
    (hfetch : fetch index row id field value s = (s', .ok isFound)) (h : Due functions s' p) : Due functions s p := by
  have hgrows := grows_of_fetch hfetch
  exact ⟨h.function, h.requires, fun hmem => h.fetched (hgrows.fetched hmem),
    fun w hw hmem => h.missed w hw (hgrows.missed hmem)⟩

theorem Run.due {s : LookupState σ} {log : List Probe} {result : LookupState σ × Except SearchError Unit}
    (h : Run index row id functions s log result) : ∀ p ∈ log, Due functions s p := by
  induction h with
  | done => simp
  | failed hdue => simpa using hdue
  | looked hdue hfetch _ _ ih =>
    exact List.forall_mem_cons.mpr ⟨hdue, fun p hp => (ih p hp).of_fetch hfetch⟩

/-- Two lookups are of different pairs, and if the first finds nothing, the second is for a function that does not
need it in its field. -/
def Apart (p q : Probe) : Prop :=
  (p.field, p.value) ≠ (q.field, q.value) ∧
    (p.outcome = .ok false → q.field = p.field → p.value ∉ q.function.values)

theorem Due.apart {s s' : LookupState σ} {p q : Probe} {isFound : Bool}
    (hfetch : fetch index row id p.field p.value s = (s', .ok isFound)) (houtcome : p.outcome = .ok isFound)
    (h : Due functions s' q) : Apart p q := by
  obtain ⟨hfetched, hmissed⟩ := caches_of_fetch hfetch
  cases isFound with
  | true =>
    refine ⟨fun hpair => h.fetched ?_, fun hmiss => ?_⟩
    · rw [hfetched, ← hpair]
      exact List.mem_cons_self
    · simp [houtcome] at hmiss
  | false =>
    have hspared (hfield : q.field = p.field) : p.value ∉ q.function.values := by
      intro hvalue
      refine h.missed p.value hvalue ?_
      rw [hmissed, hfield]
      exact List.mem_cons_self
    refine ⟨fun hpair => ?_, fun _ => hspared⟩
    obtain ⟨hfield, hvalue⟩ := Prod.mk.inj hpair
    exact hspared hfield.symm (hvalue ▸ h.requires.2)

theorem Run.apart {s : LookupState σ} {log : List Probe} {result : LookupState σ × Except SearchError Unit}
    (h : Run index row id functions s log result) : log.Pairwise Apart := by
  induction h with
  | done => exact .nil
  | failed => exact List.pairwise_singleton _ _
  | looked _ hfetch houtcome hrest ih =>
    exact List.pairwise_cons.mpr ⟨fun q hq => (hrest.due q hq).apart hfetch houtcome, ih⟩

/-- Over a journal a run adds the requests of its lookups to the record, in order. -/
theorem Run.requests {index : Source σ} {s : LookupState (BoundedState (JournalState σ))} {log : List Probe}
    {result : LookupState (BoundedState (JournalState σ)) × Except SearchError Unit}
    (h : Run index.journaled.bounded row id functions s log result) :
    Source.requests result.1.walk.below =
      Source.requests s.walk.below ++ log.map fun p => requestOf row id p.field p.value := by
  induction h with
  | done => simp
  | @failed s s' p _ _ hfetch =>
    have hone := requests_fetch index row id p.field p.value s
    rwa [hfetch] at hone
  | @looked s s' p _ _ _ _ hfetch _ _ ih =>
    have hone := requests_fetch index row id p.field p.value s
    rw [hfetch] at hone
    rw [ih, hone, List.map_cons, List.append_assoc, List.singleton_append]

end Run

/-! ## All lookups -/

/-- Each lookup made one of the seeks, in a range of its own. No two are of one pair, each is for a function that
requires its pair, and none is for a function with a value that an earlier one missed in the same field. -/
structure LooksUpOnce (row : Bytes) (id : DocumentId) (functions : List Descriptor) (log : List Probe)
    (seeks : List SeekRecord) : Prop where
  made : (seeks.map fun record => (record.range, record.filter)) = log.map fun p => requestOf row id p.field p.value
  ranges : (seeks.map SeekRecord.range).Nodup
  pairs : (log.map fun p => (p.field, p.value)).Nodup
  required : ∀ p ∈ log, p.function ∈ functions ∧ p.function.Requires p.field p.value
  spared : log.Pairwise fun p q => p.outcome = .ok false → q.field = p.field → p.value ∉ q.function.values

/-- The lookups of functions over a source, from its start. -/
def lookups {σ : Type} (index : Source σ) (row : Bytes) (id : DocumentId) (functions : List Descriptor) : List Probe :=
  probes index.bounded row id functions ⟨index.bounded.fresh, ∅, [], []⟩

theorem document_looksUpOnce {σ : Type} (index : Source σ) (row : Bytes) (id : DocumentId)
    (functions : List Descriptor) : LooksUpOnce row id functions (lookups index.journaled row id functions)
      (document index.journaled row id functions).1.below.seeks := by
  have hrun : Run index.journaled.bounded row id functions _ (lookups index.journaled row id functions) _ :=
    run_fetchAll (fun d hd => hd) _
  have hmade : ((document index.journaled row id functions).1.below.seeks.map fun record =>
      (record.range, record.filter)) = (lookups index.journaled row id functions).map fun p =>
        requestOf row id p.field p.value :=
    hrun.requests
  have hranges : (document index.journaled row id functions).1.below.seeks.map SeekRecord.range =
      (lookups index.journaled row id functions).map fun p => lookupRange row id p.field p.value := by
    have hfst := congrArg (List.map Prod.fst) hmade
    rwa [List.map_map, List.map_map] at hfst
  have hpairs : (lookups index.journaled row id functions).Pairwise
      fun p q => (p.field, p.value) ≠ (q.field, q.value) :=
    hrun.apart.imp And.left
  refine ⟨hmade, ?_, List.pairwise_map.mpr hpairs, ?_, hrun.apart.imp And.right⟩
  · rw [hranges]
    refine List.pairwise_map.mpr (hpairs.imp fun hne heq => hne ?_)
    exact Prod.ext (lookupRange_inj heq).1 (lookupRange_inj heq).2
  · exact fun p hp => ⟨(hrun.due p hp).function, (hrun.due p hp).requires⟩

/-- A value that is missing spares the other values of both its functions. -/
example : ((lookups (Source.ofEntries ∅) [] ⟨"doc", "u"⟩
    [⟨.phrase, true, .ofList ["BODY"], .ofList ["cat", "dog"]⟩, ⟨.phrase, true, .ofList ["BODY"],
      .ofList ["cat", "fox"]⟩]).map fun p => (p.field, p.value)) = [("BODY", "cat")] := by
  decide

end NegatedLookup

namespace Engine

open NegatedLookup

/-- An evaluation seeks only in the mode for top-level documents, and then looks each pair of its negated functions up
once at most. So does a lookup over a source of any other kind, however it behaves. -/
theorem evaluate_looks_up_once (e : Engine) (key : Key) (document : Document) :
    ((e.evaluate key document).seeks = [] ∨ e.config.aggregation = .topLevelDocument ∧ ∃ stack id,
      e.source = some stack ∧ key.documentId = .ok id ∧
      LooksUpOnce key.row id e.space.negated (lookups stack.source.journaled key.row id e.space.negated)
        (e.evaluate key document).seeks) ∧
    ∀ (σ : Type) (index : Source σ) (id : DocumentId),
      LooksUpOnce key.row id e.space.negated (lookups index.journaled key.row id e.space.negated)
        (NegatedLookup.document index.journaled key.row id e.space.negated).1.below.seeks := by
  refine ⟨?_, fun σ index id => document_looksUpOnce index key.row id e.space.negated⟩
  unfold evaluate
  cases hkey : key.documentId with
  | error fault => exact .inl rfl
  | ok id =>
    dsimp only
    by_cases hmode : (e.space.hasNegated && e.config.isTopLevelDocument) = true
    · rw [if_pos hmode, negatedDocument]
      cases hsource : e.source with
      | none => exact .inl rfl
      | some stack =>
        have honce := document_looksUpOnce stack.source key.row id e.space.negated
        have htop := Config.isTopLevelDocument_iff.mp (Bool.and_eq_true_iff.mp hmode).2
        refine .inr ⟨htop, stack, id, rfl, rfl, ?_⟩
        dsimp only
        split <;> exact honce
    · rw [if_neg hmode]
      exact .inl rfl

end Engine

end ProximitySearch
