import Mathlib.Data.List.Sort
import ProximitySearch.Proofs.Occurrence
import ProximitySearch.Proofs.Subtrees
import ProximitySearch.Proximity.Call

/-!
# Functions of a tree

Which calls of a tree can be read, what is read of them, and which error a call is refused with. All three are said by
positions of arguments (`firstTerm`), and by what is at and below them (`Readable`, `Describes`, `Faults`). A call has
one description (`Describes.unique`), and reading it gives that, or the error (`readCall_spec`). The errors of a call
exclude one another: literals that are no strings are found before it is seen that there are no terms, and that before
it is seen that there is no field.

So a tree has a space if all of its calls can be read, with the descriptors of the calls in the order of creation, each
once, and otherwise it has the error of the first call that cannot be read (`Space.ofTree_describes_calls`).
-/

namespace ProximitySearch

/-! ## Calls -/

namespace Query.Tree

variable {t : Tree}

/-- The call of a namespace that a node is, with the node's id. -/
def functionAt? (space : String) : Node × Nat → Option (Nat × String)
  | (node, id) =>
    match node.kind with
    | .function space' name => if space' = space then some (id, name) else none
    | _ => none

theorem functionAt?_eq_some {space : String} {entry : Node × Nat} {call : Nat × String} :
    functionAt? space entry = some call ↔ entry.2 = call.1 ∧ entry.1.kind = .function space call.2 := by
  obtain ⟨node, id⟩ := entry
  obtain ⟨id', name⟩ := call
  cases hkind : node.kind with
  | function space' name' => by_cases hspace : space' = space <;> simp [functionAt?, hkind, hspace]
  | _ => simp [functionAt?, hkind]

theorem functions_eq (t : Tree) (space : String) :
    t.functions space = t.nodes.zipIdx.filterMap (functionAt? space) := rfl

theorem mem_functions {space name : String} {id : Nat} :
    (id, name) ∈ t.functions space ↔ t.kind? id = some (.function space name) := by
  simp only [functions_eq, List.mem_filterMap, functionAt?_eq_some, kind?_eq_some, Prod.exists]
  constructor
  · rintro ⟨node, _, hnode, rfl, hkind⟩
    exact ⟨node, List.mem_zipIdx_iff_getElem?.mp hnode, hkind⟩
  · rintro ⟨node, hnode, hkind⟩
    exact ⟨node, id, List.mem_zipIdx_iff_getElem?.mpr hnode, rfl, hkind⟩

theorem ascending_functions (t : Tree) (space : String) : (t.functions space).Pairwise fun a b => a.1 < b.1 := by
  have hids : t.nodes.zipIdx.Pairwise fun a b => a.2 < b.2 := by
    rw [← List.pairwise_map (f := Prod.snd) (R := (· < ·)), List.zipIdx_map_snd]
    exact List.pairwise_lt_range'
  rw [functions_eq, List.pairwise_filterMap]
  refine hids.imp fun hlt call hcall call' hcall' => ?_
  rw [← (functionAt?_eq_some.mp hcall).1, ← (functionAt?_eq_some.mp hcall').1]
  exact hlt

end Query.Tree

namespace Proximity

open Query (Tree Literal)

theorem Kind.ofName?_eq_some {name : String} {kind : Kind} : ofName? name = some kind ↔ name = kind.name := by
  constructor
  · intro h
    unfold ofName? at h
    split at h
    · obtain rfl := Option.some.inj h
      rfl
    · obtain rfl := Option.some.inj h
      rfl
    · obtain rfl := Option.some.inj h
      rfl
    · simp at h
  · rintro rfl
    cases kind <;> rfl

variable {config : FunctionConfig} {known : FieldValues} {t : Tree} {id : Nat} {kind : Kind}

/-- A node is a call of a function of the namespace, whose kind its name says. -/
inductive IsCall (config : FunctionConfig) (t : Tree) (id : Nat) : Kind → Prop
  | within (hkind : t.kind? id = some (.function config.namespaceName "within")) : IsCall config t id .within
  | adjacent (hkind : t.kind? id = some (.function config.namespaceName "adjacent")) : IsCall config t id .adjacent
  | phrase (hkind : t.kind? id = some (.function config.namespaceName "phrase")) : IsCall config t id .phrase

theorem isCall_iff : IsCall config t id kind ↔ t.kind? id = some (.function config.namespaceName kind.name) := by
  constructor
  · rintro (hkind | hkind | hkind) <;> exact hkind
  · intro hkind
    cases kind with
    | within => exact .within hkind
    | adjacent => exact .adjacent hkind
    | phrase => exact .phrase hkind

/-- All the calls of a tree, in order of creation. -/
structure IsCallList (config : FunctionConfig) (t : Tree) (calls : List (Nat × Kind)) : Prop where
  ascending : calls.Pairwise fun a b => a.1 < b.1
  mem_iff : ∀ id kind, (id, kind) ∈ calls ↔ IsCall config t id kind

/-- The calls that are read. -/
def callsOf (config : FunctionConfig) (t : Tree) : List (Nat × Kind) :=
  (t.functions config.namespaceName).filterMap fun (id, name) => (Kind.ofName? name).map fun kind => (id, kind)

theorem callOf_eq_some {call : Nat × Kind} {id : Nat} {name : String} :
    ((Kind.ofName? name).map fun kind => (id, kind)) = some call ↔ id = call.1 ∧ name = call.2.name := by
  rw [Option.map_eq_some_iff]
  constructor
  · rintro ⟨kind, hkind, rfl⟩
    exact ⟨rfl, Kind.ofName?_eq_some.mp hkind⟩
  · rintro ⟨rfl, hname⟩
    exact ⟨call.2, Kind.ofName?_eq_some.mpr hname, rfl⟩

theorem isCallList_callsOf (config : FunctionConfig) (t : Tree) : IsCallList config t (callsOf config t) where
  ascending := by
    rw [callsOf, List.pairwise_filterMap]
    refine (t.ascending_functions config.namespaceName).imp fun hlt call hcall call' hcall' => ?_
    rw [← (callOf_eq_some.mp hcall).1, ← (callOf_eq_some.mp hcall').1]
    exact hlt
  mem_iff id kind := by
    simp only [callsOf, List.mem_filterMap, Prod.exists, callOf_eq_some, Tree.mem_functions, isCall_iff]
    constructor
    · rintro ⟨_, _, hkind, rfl, rfl⟩
      exact hkind
    · intro hkind
      exact ⟨id, kind.name, hkind, rfl, rfl⟩

theorem IsCallList.unique {calls calls' : List (Nat × Kind)} (h : IsCallList config t calls)
    (h' : IsCallList config t calls') : calls = calls' := by
  have hirrefl : Std.Irrefl fun a b : Nat × Kind => a.1 < b.1 := ⟨fun a => Nat.lt_irrefl a.1⟩
  have hantisymm : Std.Antisymm fun a b : Nat × Kind => a.1 < b.1 := ⟨fun a b hlt hgt => absurd hlt (Nat.lt_asymm hgt)⟩
  exact h.ascending.eq_of_mem_iff h'.ascending fun call => (h.mem_iff _ _).trans (h'.mem_iff _ _).symm

/-! ## Arguments -/

/-- The first argument of a call is a number or the placeholder for offsets. -/
def OmitsField (config : FunctionConfig) (t : Tree) (id : Nat) : Prop :=
  ∃ first, (t.children id).head? = some first ∧
    ((∃ x, t.kind? first = some (.literal (.number x))) ∨ t.kind? first = some (.identifier config.offsetPlaceholder))

theorem isFieldOmitted_iff {first : Nat} : isFieldOmitted config t first = true ↔
    (∃ x, t.kind? first = some (.literal (.number x))) ∨
      t.kind? first = some (.identifier config.offsetPlaceholder) := by
  unfold isFieldOmitted
  split
  · next x hkind => simp [hkind]
  · next name hkind => simp [hkind]
  · next hnumber hidentifier =>
    simp only [Bool.false_eq_true, false_iff, not_or, not_exists]
    exact ⟨hnumber, hidentifier _⟩

theorem any_isFieldOmitted_iff :
    (t.children id).head?.any (isFieldOmitted config t) = true ↔ OmitsField config t id := by
  simp only [Option.any_eq_true, isFieldOmitted_iff, OmitsField]

theorem isFieldOmitted_first_iff {first : Nat} {others : List Nat} (hchildren : t.children id = first :: others) :
    isFieldOmitted config t first = true ↔ OmitsField config t id := by
  rw [← any_isFieldOmitted_iff, hchildren]
  rfl

instance decidableOmitsField (config : FunctionConfig) (t : Tree) (id : Nat) : Decidable (OmitsField config t id) :=
  decidable_of_iff _ any_isFieldOmitted_iff

/-- Position of the first term of a call. Before it are the field, the offset map and, for `within`, a distance; it is
one less if the field is left out. -/
def firstTerm (config : FunctionConfig) (t : Tree) (id : Nat) : Kind → Nat
  | .within => if OmitsField config t id then 2 else 3
  | .adjacent | .phrase => if OmitsField config t id then 1 else 2

theorem firstTerm_eq : firstTerm config t id kind =
    if OmitsField config t id then kind.valueOffset - 1 else kind.valueOffset := by
  cases kind <;> rfl

/-- An argument is a term by its position. -/
def IsTerm (config : FunctionConfig) (t : Tree) (id : Nat) (kind : Kind) (argument : Nat) : Prop :=
  ∃ position, firstTerm config t id kind ≤ position ∧ (t.children id)[position]? = some argument

theorem isTerm_iff {argument : Nat} : IsTerm config t id kind argument ↔
    argument ∈ (t.children id).drop (firstTerm config t id kind) := by
  rw [List.mem_iff_getElem?]
  constructor
  · rintro ⟨position, hle, hargument⟩
    obtain ⟨i, rfl⟩ := Nat.exists_eq_add_of_le hle
    exact ⟨i, by rw [List.getElem?_drop, hargument]⟩
  · rintro ⟨i, hi⟩
    rw [List.getElem?_drop] at hi
    exact ⟨_, Nat.le_add_right _ _, hi⟩

/-- A literal is at or below a term of a call. -/
def HoldsLiteral (config : FunctionConfig) (t : Tree) (id : Nat) (kind : Kind) (value : Literal) : Prop :=
  ∃ argument, IsTerm config t id kind argument ∧ ∃ i, t.Below argument i ∧ t.kind? i = some (.literal value)

/-- An identifier is at or below the first argument of a call. -/
def NamesField (t : Tree) (id : Nat) (name : String) : Prop :=
  ∃ first, (t.children id).head? = some first ∧ ∃ i, t.Below first i ∧ t.kind? i = some (.identifier name)

/-- The literals at and below the terms of a call, in order. -/
def termLiterals (config : FunctionConfig) (t : Tree) (id : Nat) (kind : Kind) : List Literal :=
  ((t.children id).drop (firstTerm config t id kind)).flatMap t.literalsIn

/-- A call can be read: it has arguments, strings for terms, and a field unless it may leave it out. -/
structure Readable (config : FunctionConfig) (t : Tree) (id : Nat) (kind : Kind) : Prop where
  arguments : t.children id ≠ []
  strings : ∀ value, HoldsLiteral config t id kind value → ∃ s, value = .string s
  terms : ∃ value, HoldsLiteral config t id kind value
  field : ¬OmitsField config t id → ∃ name, NamesField t id name

/-- What is read of a call. A field that is left out stands for all those known to hold one of the values. -/
structure Describes (config : FunctionConfig) (known : FieldValues) (t : Tree) (id : Nat) (kind : Kind)
    (d : Descriptor) : Prop where
  kind_eq : d.kind = kind
  negated_eq : d.negated = t.isNegated id
  values : ∀ s, s ∈ d.values ↔ HoldsLiteral config t id kind (.string s)
  named : ¬OmitsField config t id → ∀ field, field ∈ d.fields ↔ NamesField t id field
  held : OmitsField config t id → ∀ field, field ∈ d.fields ↔
    ∃ values, known.get? field = some values ∧ ∃ value ∈ d.values, value ∈ values

theorem Describes.unique {d d' : Descriptor} (h : Describes config known t id kind d)
    (h' : Describes config known t id kind d') : d = d' := by
  have hvalues : d.values = d'.values := SortedSet.ext fun s => (h.values s).trans (h'.values s).symm
  have hfields : d.fields = d'.fields := by
    refine SortedSet.ext fun field => ?_
    by_cases homits : OmitsField config t id
    · rw [h.held homits, h'.held homits, hvalues]
    · rw [h.named homits, h'.named homits]
  have hkind := h.kind_eq.trans h'.kind_eq.symm
  have hnegated := h.negated_eq.trans h'.negated_eq.symm
  cases d
  cases d'
  exact Descriptor.mk.injEq .. ▸ ⟨hkind, hnegated, hfields, hvalues⟩

/-- The error that a call is refused with. Each comes only if those before it do not. -/
inductive Faults (config : FunctionConfig) (t : Tree) (id : Nat) (kind : Kind) : SearchError → Prop
  | noArguments (hnone : t.children id = []) : Faults config t id kind (.malformedQuery (.noArguments kind.name))
  | literal {value : Literal}
      (hfirst : (termLiterals config t id kind).find? (fun value => value.asString?.isNone) = some value) :
      Faults config t id kind (.unsupportedLiteral kind.name value.text)
  | noTermValues (harguments : t.children id ≠ []) (hnone : ∀ value, ¬HoldsLiteral config t id kind value) :
      Faults config t id kind (.malformedQuery (.noTermValues kind.name))
  | noField (hstrings : ∀ value, HoldsLiteral config t id kind value → ∃ s, value = .string s)
      (hterms : ∃ value, HoldsLiteral config t id kind value) (hnamed : ¬OmitsField config t id)
      (hnone : ∀ name, ¬NamesField t id name) : Faults config t id kind (.malformedQuery (.noField kind.name))

theorem mem_termLiterals {value : Literal} :
    value ∈ termLiterals config t id kind ↔ HoldsLiteral config t id kind value := by
  simp only [termLiterals, List.mem_flatMap, Tree.mem_literalsIn, HoldsLiteral, isTerm_iff]

theorem termValues_eq (kind : Kind) (literals : List Literal) : termValues kind literals =
    match literals.find? fun value => value.asString?.isNone with
    | some value => .error (.unsupportedLiteral kind.name value.text)
    | none => .ok (literals.filterMap Literal.asString?) := by
  induction literals with
  | nil => rfl
  | cons value literals ih =>
    unfold termValues at ih ⊢
    rw [List.mapM_cons, ih]
    cases hvalue : value.asString? with
    | none => simp [hvalue, bind, Except.bind]
    | some s =>
      simp only [List.find?_cons, hvalue, Option.isNone_some, List.filterMap_cons]
      cases literals.find? fun value => value.asString?.isNone with
      | none => rfl
      | some value => rfl

theorem FieldValues.mem_fieldsHolding {values : SortedSet String} {field : String} :
    field ∈ known.fieldsHolding values ↔
      ∃ held, known.get? field = some held ∧ ∃ value ∈ values, value ∈ held := by
  simp only [fieldsHolding, SortedSet.mem_ofList, List.mem_filterMap, SortedMap.get?_eq_some_iff, Prod.exists]
  constructor
  · rintro ⟨field', held, hheld, hfield⟩
    split at hfield
    · next hany =>
      obtain rfl := Option.some.inj hfield
      obtain ⟨value, hvalue, hmem⟩ := List.any_eq_true.mp hany
      exact ⟨held, hheld, value, hvalue, by simpa using hmem⟩
    · simp at hfield
  · rintro ⟨held, hheld, value, hvalue, hmem⟩
    refine ⟨field, held, hheld, if_pos (List.any_eq_true.mpr ⟨value, hvalue, by simpa using hmem⟩)⟩

theorem find?_termLiterals_eq_none :
    (termLiterals config t id kind).find? (fun value => value.asString?.isNone) = none ↔
      ∀ value, HoldsLiteral config t id kind value → ∃ s, value = .string s := by
  simp only [List.find?_eq_none, mem_termLiterals, ← Literal.asString?_eq_some, Option.isNone_iff_eq_none,
    ← Option.ne_none_iff_exists', ne_eq]

theorem mem_termStrings {s : String} :
    s ∈ SortedSet.ofList ((termLiterals config t id kind).filterMap Literal.asString?) ↔
      HoldsLiteral config t id kind (.string s) := by
  simp only [SortedSet.mem_ofList, List.mem_filterMap, Literal.asString?_eq_some, ← mem_termLiterals, exists_eq_right]

theorem readCall_eq {first : Nat} {others : List Nat} (hchildren : t.children id = first :: others) :
    readCall config known t id kind =
      match (termLiterals config t id kind).find? fun value => value.asString?.isNone with
      | some value => .error (.unsupportedLiteral kind.name value.text)
      | none =>
        let values := SortedSet.ofList ((termLiterals config t id kind).filterMap Literal.asString?)
        let fields :=
          if isFieldOmitted config t first then known.fieldsHolding values else .ofList (t.identifiersIn first)
        if values.isEmpty then .error (.malformedQuery (.noTermValues kind.name))
        else if !isFieldOmitted config t first && fields.isEmpty then .error (.malformedQuery (.noField kind.name))
        else .ok { kind, negated := t.isNegated id, fields, values } := by
  have hliterals : ((first :: others).drop (if isFieldOmitted config t first then kind.valueOffset - 1
      else kind.valueOffset)).flatMap t.literalsIn = termLiterals config t id kind := by
    rw [termLiterals, hchildren, firstTerm_eq]
    simp only [isFieldOmitted_first_iff hchildren]
  unfold readCall
  rw [hchildren]
  dsimp only
  rw [hliterals, termValues_eq]
  cases (termLiterals config t id kind).find? fun value => value.asString?.isNone with
  | some value => rfl
  | none =>
    dsimp only [bind, Except.bind]
    split
    · rfl
    · split <;> rfl

/-- Reading a call gives its description or the error that it is refused with. -/
theorem readCall_spec (config : FunctionConfig) (known : FieldValues) (t : Tree) (id : Nat) (kind : Kind) :
    match readCall config known t id kind with
    | .ok d => Readable config t id kind ∧ Describes config known t id kind d
    | .error error => Faults config t id kind error := by
  cases hchildren : t.children id with
  | nil =>
    rw [readCall, hchildren]
    exact .noArguments hchildren
  | cons first others =>
    have harguments : t.children id ≠ [] := by simp [hchildren]
    have homitted : isFieldOmitted config t first = true ↔ OmitsField config t id := isFieldOmitted_first_iff hchildren
    have hnames (name : String) : name ∈ SortedSet.ofList (t.identifiersIn first) ↔ NamesField t id name := by
      simp [NamesField, hchildren, Tree.mem_identifiersIn]
    rw [readCall_eq hchildren]
    cases hfind : (termLiterals config t id kind).find? fun value => value.asString?.isNone with
    | some value => exact .literal hfind
    | none =>
      have hstrings := find?_termLiterals_eq_none.mp hfind
      have hvalues (s : String) :
          s ∈ SortedSet.ofList ((termLiterals config t id kind).filterMap Literal.asString?) ↔
            HoldsLiteral config t id kind (.string s) := mem_termStrings
      dsimp only
      generalize SortedSet.ofList ((termLiterals config t id kind).filterMap Literal.asString?) = values at hvalues ⊢
      cases hempty : values.isEmpty with
      | true =>
        refine .noTermValues harguments fun value hvalue => ?_
        obtain ⟨s, rfl⟩ := hstrings value hvalue
        exact SortedSet.isEmpty_iff.mp hempty s ((hvalues s).mpr hvalue)
      | false =>
        have hterms : ∃ value, HoldsLiteral config t id kind value := by
          obtain ⟨s, hs⟩ := SortedSet.exists_mem_of_not_isEmpty hempty
          exact ⟨_, (hvalues s).mp hs⟩
        cases homit : isFieldOmitted config t first with
        | true =>
          have homits := homitted.mp homit
          exact ⟨⟨harguments, hstrings, hterms, fun hnamed => absurd homits hnamed⟩, rfl, rfl, hvalues,
            fun hnamed => absurd homits hnamed, fun _ field => FieldValues.mem_fieldsHolding⟩
        | false =>
          have hnamed : ¬OmitsField config t id := by simp [← homitted, homit]
          generalize SortedSet.ofList (t.identifiersIn first) = fields at hnames ⊢
          simp only [Bool.false_eq_true, if_false, Bool.not_false, Bool.true_and]
          cases hnone : fields.isEmpty with
          | true =>
            exact .noField hstrings hterms hnamed fun name hname =>
              SortedSet.isEmpty_iff.mp hnone name ((hnames name).mpr hname)
          | false =>
            obtain ⟨name, hname⟩ := SortedSet.exists_mem_of_not_isEmpty hnone
            exact ⟨⟨harguments, hstrings, hterms, fun _ => ⟨name, (hnames name).mp hname⟩⟩, rfl, rfl, hvalues,
              fun _ => hnames, fun homits => absurd homits hnamed⟩

theorem Faults.not_readable {error : SearchError} (h : Faults config t id kind error) : ¬Readable config t id kind := by
  intro hreadable
  cases h with
  | noArguments hnone => exact hreadable.arguments hnone
  | literal hfirst => simp [find?_termLiterals_eq_none.mpr hreadable.strings] at hfirst
  | noTermValues harguments hnone =>
    obtain ⟨value, hvalue⟩ := hreadable.terms
    exact hnone value hvalue
  | noField hstrings hterms hnamed hnone =>
    obtain ⟨name, hname⟩ := hreadable.field hnamed
    exact hnone name hname

theorem readable_iff : Readable config t id kind ↔ ∃ d, readCall config known t id kind = .ok d := by
  have hspec := readCall_spec config known t id kind
  constructor
  · intro hreadable
    cases hread : readCall config known t id kind with
    | ok d => exact ⟨d, rfl⟩
    | error error =>
      rw [hread] at hspec
      exact absurd hreadable hspec.not_readable
  · rintro ⟨d, hread⟩
    rw [hread] at hspec
    exact hspec.1

theorem describes_of_readCall {d : Descriptor} (h : readCall config known t id kind = .ok d) :
    Describes config known t id kind d := by
  have hspec := readCall_spec config known t id kind
  rw [h] at hspec
  exact hspec.2

theorem faults_of_readCall {error : SearchError} (h : readCall config known t id kind = .error error) :
    Faults config t id kind error := by
  have hspec := readCall_spec config known t id kind
  rwa [h] at hspec

/-! ## Whole trees -/

theorem readCalls_eq (config : FunctionConfig) (known : FieldValues) (t : Tree) :
    readCalls config known t = (callsOf config t).mapM fun call => readCall config known t call.1 call.2 := rfl

theorem exists_readCalls_iff : (∃ descriptors, readCalls config known t = .ok descriptors) ↔
    ∀ id kind, IsCall config t id kind → Readable config t id kind := by
  simp only [readCalls_eq, exists_mapM_ok_iff, Prod.forall, ← readable_iff, (isCallList_callsOf config t).mem_iff]

/-- The error of a tree is that of the first call that cannot be read. -/
theorem first_of_readCalls {error : SearchError} (h : readCalls config known t = .error error) :
    ∃ id kind, IsCall config t id kind ∧ Faults config t id kind error ∧
      ∀ id' < id, ∀ kind', IsCall config t id' kind' → Readable config t id' kind' := by
  obtain ⟨hascending, hmem⟩ := isCallList_callsOf config t
  rw [readCalls_eq] at h
  obtain ⟨before, call, after, hsplit, hbefore, herror⟩ := mapM_eq_error_iff.mp h
  rw [hsplit] at hascending hmem
  refine ⟨call.1, call.2, (hmem _ _).mp (by simp), faults_of_readCall herror, fun id hid kind hcall => ?_⟩
  have hearlier : (id, kind) ∈ before := by
    rcases List.mem_append.mp ((hmem id kind).mpr hcall) with hin | hin
    · exact hin
    · -- from the call on the ids are no smaller
      rcases List.mem_cons.mp hin with rfl | hin
      · exact absurd hid (Nat.lt_irrefl _)
      · have hlater := (List.pairwise_cons.mp (List.pairwise_append.mp hascending).2.1).1 _ hin
        exact absurd hid (Nat.lt_asymm hlater)
  exact readable_iff.mpr (hbefore _ hearlier)

/-- A tree has a space just if all its calls can be read. The space has their descriptors in order of creation, each
once, and is the union over them. Otherwise the error is that of the first call that cannot be read. -/
theorem Space.ofTree_describes_calls (config : FunctionConfig) (known : FieldValues) (t : Tree) :
    ∃ calls, IsCallList config t calls ∧
      ((∃ space, ofTree config known t = .ok space) ↔ ∀ id kind, IsCall config t id kind → Readable config t id kind) ∧
      (∀ space, ofTree config known t = .ok space → space.Unions ∧
        ∃ descriptors, List.Forall₂ (fun call d => Describes config known t call.1 call.2 d) calls descriptors ∧
          space.descriptors = descriptors.eraseDups) ∧
      ∀ error, ofTree config known t = .error error →
        ∃ id kind, IsCall config t id kind ∧ Faults config t id kind error ∧
          ∀ id' < id, ∀ kind', IsCall config t id' kind' → Readable config t id' kind' := by
  refine ⟨callsOf config t, isCallList_callsOf config t, ?_, fun space hspace => ?_, fun error herror => ?_⟩
  · exact exists_map_ok_iff.trans exists_readCalls_iff
  · obtain ⟨descriptors, hread, rfl⟩ := of_map_ok hspace
    rw [readCalls_eq] at hread
    refine ⟨unions_ofDescriptors descriptors, descriptors, ?_, descriptors_ofDescriptors descriptors⟩
    exact (mapM_eq_ok_iff.mp hread).imp fun call d hcall => describes_of_readCall hcall
  · exact first_of_readCalls (of_map_error herror)

/-- A call with all its arguments, and a negated one that leaves its field out. -/
def quickFoxNotDog : Tree := ⟨[
  ⟨.script, none, [1]⟩,
  ⟨.or, some 0, [2, 8]⟩,
  ⟨.function "content" "within", some 1, [3, 4, 5, 6, 7]⟩,
  ⟨.identifier "TEXT", some 2, []⟩,
  ⟨.literal (.number 3), some 2, []⟩,
  ⟨.identifier "termOffsetMap", some 2, []⟩,
  ⟨.literal (.string "quick"), some 2, []⟩,
  ⟨.literal (.string "fox"), some 2, []⟩,
  ⟨.not, some 1, [9]⟩,
  ⟨.function "content" "phrase", some 8, [10, 11]⟩,
  ⟨.identifier "termOffsetMap", some 9, []⟩,
  ⟨.literal (.string "dog"), some 9, []⟩]⟩

def zebraAndDog : FieldValues := .ofList [("BODY", .ofList ["dog"]), ("TITLE", .ofList ["zebra"])]

theorem isCallList_quickFoxNotDog (placeholder : String) :
    IsCallList ⟨"content", placeholder⟩ quickFoxNotDog [(2, .within), (9, .phrase)] :=
  isCallList_callsOf ⟨"content", placeholder⟩ quickFoxNotDog

theorem eq_of_isCall_quickFoxNotDog {placeholder : String}
    (hcall : IsCall ⟨"content", placeholder⟩ quickFoxNotDog id kind) :
    id = 2 ∧ kind = .within ∨ id = 9 ∧ kind = .phrase := by
  simpa using ((isCallList_quickFoxNotDog placeholder).mem_iff id kind).mpr hcall

theorem termLiterals_quickFox (h : ¬OmitsField config quickFoxNotDog 2) :
    termLiterals config quickFoxNotDog 2 .within = [.string "quick", .string "fox"] := by
  have hchildren : quickFoxNotDog.children 2 = [3, 4, 5, 6, 7] := rfl
  have hquick : quickFoxNotDog.literalsIn 6 = [.string "quick"] := Tree.literalsIn_of_leaf rfl
  have hfox : quickFoxNotDog.literalsIn 7 = [.string "fox"] := Tree.literalsIn_of_leaf rfl
  simp [termLiterals, firstTerm, h, hchildren, hquick, hfox]

theorem readable_quickFox (h : ¬OmitsField config quickFoxNotDog 2) : Readable config quickFoxNotDog 2 .within where
  arguments := by decide
  strings := by simp [← mem_termLiterals, termLiterals_quickFox h]
  terms := ⟨.string "fox", mem_termLiterals.mp (by simp [termLiterals_quickFox h])⟩
  field _ := ⟨"TEXT", 3, rfl, 3, .refl, rfl⟩

theorem termLiterals_dog : termLiterals config quickFoxNotDog 9 .phrase =
    if OmitsField config quickFoxNotDog 9 then [.string "dog"] else [] := by
  have hchildren : quickFoxNotDog.children 9 = [10, 11] := rfl
  have hdog : quickFoxNotDog.literalsIn 11 = [.string "dog"] := Tree.literalsIn_of_leaf rfl
  by_cases h : OmitsField config quickFoxNotDog 9 <;> simp [termLiterals, firstTerm, h, hchildren, hdog]

theorem readable_dog : Readable .standard quickFoxNotDog 9 .phrase := by
  have homits : OmitsField .standard quickFoxNotDog 9 := by decide
  refine ⟨by decide, ?_, ⟨.string "dog", mem_termLiterals.mp ?_⟩, fun hnamed => absurd homits hnamed⟩
  · simp [← mem_termLiterals, termLiterals_dog, homits]
  · simp [termLiterals_dog, homits]

theorem describes_quickFox : Describes .standard known quickFoxNotDog 2 .within
    ⟨.within, false, .ofList ["TEXT"], .ofList ["quick", "fox"]⟩ := by
  have hnamed : ¬OmitsField .standard quickFoxNotDog 2 := by decide
  have htext : quickFoxNotDog.identifiersIn 3 = ["TEXT"] := Tree.identifiersIn_of_leaf rfl
  have hfirst : (quickFoxNotDog.children 2).head? = some 3 := rfl
  refine ⟨rfl, by decide +kernel, fun s => ?_, fun _ field => ?_, fun homits => absurd homits hnamed⟩
  · simp [← mem_termLiterals, termLiterals_quickFox hnamed]
  · simp [NamesField, hfirst, ← Tree.mem_identifiersIn, htext]

theorem describes_dog : Describes .standard zebraAndDog quickFoxNotDog 9 .phrase
    ⟨.phrase, true, .ofList ["BODY"], .ofList ["dog"]⟩ := by
  have homits : OmitsField .standard quickFoxNotDog 9 := by decide
  have hbody : zebraAndDog.fieldsHolding (.ofList ["dog"]) = .ofList ["BODY"] := by decide +kernel
  refine ⟨rfl, by decide +kernel, fun s => ?_, fun hnamed => absurd homits hnamed, fun _ field => ?_⟩
  · simp [← mem_termLiterals, termLiterals_dog, homits]
  · rw [← FieldValues.mem_fieldsHolding, hbody]

/-- The first call names its field, so that its terms are the arguments from the fourth on. The second leaves it out,
and its term is its second argument; with another placeholder it names one, and no argument is left for terms. -/
theorem Space.ofTree_describes_calls_dog :
    Query.parse "content:within(TEXT, 3, termOffsetMap, 'quick', 'fox') || !content:phrase(termOffsetMap, 'dog')" =
      .ok quickFoxNotDog ∧
    (∃ space, ofTree .standard zebraAndDog quickFoxNotDog = .ok space ∧
      space.descriptors = [⟨.within, false, .ofList ["TEXT"], .ofList ["quick", "fox"]⟩,
        ⟨.phrase, true, .ofList ["BODY"], .ofList ["dog"]⟩] ∧ Utf8.encode "dog\x00BODY" ∈ space.pairs) ∧
    ofTree ⟨"content", "offsets"⟩ zebraAndDog quickFoxNotDog = .error (.malformedQuery (.noTermValues "phrase")) := by
  refine ⟨by decide +kernel, ?_, ?_⟩
  · obtain ⟨calls, hcalls, hreadable, hspace, -⟩ := ofTree_describes_calls .standard zebraAndDog quickFoxNotDog
    obtain rfl := hcalls.unique (isCallList_quickFoxNotDog "termOffsetMap")
    obtain ⟨space, hok⟩ : ∃ space, ofTree .standard zebraAndDog quickFoxNotDog = .ok space := by
      refine hreadable.mpr fun id kind hcall => ?_
      rcases eq_of_isCall_quickFoxNotDog hcall with ⟨rfl, rfl⟩ | ⟨rfl, rfl⟩
      · exact readable_quickFox (by decide)
      · exact readable_dog
    obtain ⟨hunions, descriptors, hdescribes, hdescriptors⟩ := hspace space hok
    obtain _ | ⟨hfirst, _ | ⟨hsecond, _ | _⟩⟩ := hdescribes
    obtain rfl := hfirst.unique describes_quickFox
    obtain rfl := hsecond.unique describes_dog
    refine ⟨space, hok, hdescriptors, (hunions.pairs _).mpr ?_⟩
    rw [hdescriptors]
    exact ⟨_, List.mem_cons_of_mem _ List.mem_cons_self, "BODY", "dog", ⟨by decide, by decide⟩, rfl⟩
  · obtain ⟨-, -, hreadable, -, herror⟩ := ofTree_describes_calls ⟨"content", "offsets"⟩ zebraAndDog quickFoxNotDog
    have hnamed : ¬OmitsField ⟨"content", "offsets"⟩ quickFoxNotDog 9 := by decide
    have hnone (value : Literal) : ¬HoldsLiteral ⟨"content", "offsets"⟩ quickFoxNotDog 9 .phrase value := by
      simp [← mem_termLiterals, termLiterals_dog, hnamed]
    cases hrun : ofTree ⟨"content", "offsets"⟩ zebraAndDog quickFoxNotDog with
    | ok space =>
      obtain ⟨value, hvalue⟩ := (hreadable.mp ⟨space, hrun⟩ 9 .phrase (.phrase rfl)).terms
      exact absurd hvalue (hnone value)
    | error error =>
      obtain ⟨id, kind, hcall, hfaults, -⟩ := herror error hrun
      rcases eq_of_isCall_quickFoxNotDog hcall with ⟨rfl, rfl⟩ | ⟨rfl, rfl⟩
      · exact absurd (readable_quickFox (by decide)) hfaults.not_readable
      · cases hfaults with
        | noArguments hempty => exact absurd hempty (by decide)
        | literal hfirst => simp [termLiterals_dog, hnamed] at hfirst
        | noTermValues => rfl
        | noField _ hterms => exact absurd hterms (not_exists.mpr hnone)

end Proximity

end ProximitySearch
