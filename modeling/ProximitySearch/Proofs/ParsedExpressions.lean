import ProximitySearch.Proofs.Layout
import ProximitySearch.Proofs.Expressions

/-!
# What a parser builds

Whatever the text, the words among its tokens are names (`isName_of_mem_tokenize`), and a parser builds from
them lists that are flat and have two members at least, comparisons between operands, and identifiers that
are no literals (`Expr.isBuilt_of_parse?`). A reader built from readers keeps what these yield
(`Parser.Yields`), so there is a lemma for each reader of the grammar.

Only numbers may be out of shape: one that is too large is infinite. An expression that was built and whose
numbers read back is normal (`Expr.IsBuilt.isNormal`).
-/

namespace ProximitySearch.Query

/-! ## Words -/

theorem isName_of_scanToken {c : Char} {text rest : List Char} {name : String}
    (h : scanToken c text = some (.identifier name, rest)) : IsName name := by
  unfold scanToken at h
  split at h
  case h_18 =>
    split at h
    · obtain ⟨⟨body, rest'⟩, -, heq⟩ := Option.map_eq_some_iff.mp h
      simp at heq
    · split at h
      · simp [scanNumber] at h
      · split at h
        · next hstart =>
          obtain ⟨hname, -⟩ := Prod.mk.inj (Option.some.inj h)
          obtain rfl := Token.identifier.inj hname
          exact ⟨_, _, String.toList_ofList, hstart, List.all_takeWhile⟩
        · simp at h
  case h_17 => simp [scanNumber] at h
  all_goals simp at h

theorem isName_of_mem_tokenize {text : List Char} {tokens : List Token} (h : tokenize text = some tokens)
    {name : String} (hname : .identifier name ∈ tokens) : IsName name := by
  fun_induction tokenize text generalizing tokens with
  | case1 =>
    obtain rfl := Option.some.inj h
    simp at hname
  | case2 c rest hblank ih => exact ih h hname
  | case3 c rest hblank hscan => simp at h
  | case4 c rest hblank t rest' hscan ih =>
    obtain ⟨others, hothers, rfl⟩ := Option.map_eq_some_iff.mp h
    rcases List.mem_cons.mp hname with rfl | hname
    · exact isName_of_scanToken hscan
    · exact ih hothers hname

/-! ## Expressions -/

namespace Expr

/-- A list of operands is flat and has two members at least, a comparison is between operands, names are names, and an
identifier is none of the words for literals. -/
def IsShaped : Expr → Prop
  | .and operands => 2 ≤ operands.length ∧ ∀ e ∈ operands, e.isAnd = false
  | .or operands => 2 ≤ operands.length ∧ ∀ e ∈ operands, e.isOr = false
  | .function space name _ => IsName space ∧ IsName name
  | .comparison _ left right => left.isComparable = true ∧ right.isComparable = true
  | .identifier name => IsName name ∧ name ∉ literalWords
  | .not _ | .delayed _ | .literal _ => True

/-- An expression of the kind that a parser builds. -/
abbrev IsBuilt : Expr → Prop := Everywhere IsShaped

theorem isBuilt_ofWord {name : String} (h : IsName name) :
    (ofWord name).IsBuilt ∧ (ofWord name).isComparable = true := by
  unfold ofWord
  split
  · exact ⟨.intro trivial (by simp [operands]), rfl⟩
  · exact ⟨.intro trivial (by simp [operands]), rfl⟩
  · exact ⟨.intro trivial (by simp [operands]), rfl⟩
  · next htrue hfalse hnull =>
    refine ⟨.intro ⟨h, ?_⟩ (by simp [operands]), rfl⟩
    simp only [literalWords, List.mem_cons, List.not_mem_nil, or_false, not_or]
    exact ⟨htrue, hfalse, hnull⟩

theorem two_le_length {es : List Expr} (hne : es ≠ []) (hsingle : ∀ e, es ≠ [e]) : 2 ≤ es.length := by
  match es with
  | [] => exact absurd rfl hne
  | [e] => exact absurd rfl (hsingle e)
  | _ :: _ :: _ => simp

theorem flatMap_spec {P : Expr → Prop} {es : List Expr} {flat : Expr → List Expr} (hlen : 2 ≤ es.length)
    (h : ∀ e ∈ es, flat e ≠ [] ∧ ∀ d ∈ flat e, P d) :
    2 ≤ (es.flatMap flat).length ∧ ∀ d ∈ es.flatMap flat, P d := by
  constructor
  · match es with
    | e :: e' :: others =>
      have he := List.length_pos_iff.mpr (h e (by simp)).1
      have he' := List.length_pos_iff.mpr (h e' (by simp)).1
      simp only [List.flatMap_cons, List.length_append]
      omega
  · intro d hd
    obtain ⟨e, he, hd⟩ := List.mem_flatMap.mp hd
    exact (h e he).2 d hd

theorem isBuilt_and {es : List Expr} (h : 2 ≤ es.length ∧ ∀ e ∈ es, e.IsBuilt ∧ e.isAnd = false) : (and es).IsBuilt :=
  .intro ⟨h.1, fun e he => (h.2 e he).2⟩ fun e he => (h.2 e he).1

theorem isBuilt_or {es : List Expr} (h : 2 ≤ es.length ∧ ∀ e ∈ es, e.IsBuilt ∧ e.isOr = false) : (or es).IsBuilt :=
  .intro ⟨h.1, fun e he => (h.2 e he).2⟩ fun e he => (h.2 e he).1

theorem isBuilt_conjunction {es : List Expr} (hne : es ≠ []) (h : ∀ e ∈ es, e.IsBuilt) : (conjunction es).IsBuilt := by
  unfold conjunction
  split
  · next e => exact h e (by simp)
  · next hsingle =>
    refine isBuilt_and (flatMap_spec (two_le_length hne hsingle) fun e he => ?_)
    have hbuilt := h e he
    cases e with
    | and inner =>
      obtain ⟨⟨hlen, hflat⟩, hbelow⟩ := hbuilt
      have hpos : 0 < inner.length := Nat.lt_of_lt_of_le Nat.two_pos hlen
      exact ⟨List.ne_nil_of_length_pos hpos, fun d hd => ⟨hbelow d hd, hflat d hd⟩⟩
    | _ => exact ⟨by simp, fun d hd => List.mem_singleton.mp hd ▸ ⟨hbuilt, rfl⟩⟩

theorem isBuilt_disjunction {es : List Expr} (hne : es ≠ []) (h : ∀ e ∈ es, e.IsBuilt) : (disjunction es).IsBuilt := by
  unfold disjunction
  split
  · next e => exact h e (by simp)
  · next hsingle =>
    refine isBuilt_or (flatMap_spec (two_le_length hne hsingle) fun e he => ?_)
    have hbuilt := h e he
    cases e with
    | or inner =>
      obtain ⟨⟨hlen, hflat⟩, hbelow⟩ := hbuilt
      have hpos : 0 < inner.length := Nat.lt_of_lt_of_le Nat.two_pos hlen
      exact ⟨List.ne_nil_of_length_pos hpos, fun d hd => ⟨hbelow d hd, hflat d hd⟩⟩
    | _ => exact ⟨by simp, fun d hd => List.mem_singleton.mp hd ▸ ⟨hbuilt, rfl⟩⟩

end Expr

/-! ## Readers -/

namespace Parser

open ProximitySearch.Query.Expr (IsBuilt)

/-- The words among tokens are names. -/
def Worded (tokens : List Token) : Prop := ∀ name, Token.identifier name ∈ tokens → IsName name

theorem Worded.of_cons {t : Token} {tokens : List Token} (h : Worded (t :: tokens)) : Worded tokens :=
  fun name hname => h name (List.mem_cons_of_mem t hname)

/-- What a reader reads from tokens whose words are names has a property, and so are the words left over names. -/
def Yields {α : Type} (read : Parser α) (P : α → Prop) : Prop :=
  ∀ tokens a rest, Worded tokens → read tokens = some (a, rest) → P a ∧ Worded rest

theorem expect_yields (t : Token) : Yields (expect t) fun _ => True := by
  intro tokens a rest hwords h
  unfold expect at h
  split at h
  · split at h
    · obtain ⟨-, rfl⟩ := Prod.mk.inj (Option.some.inj h)
      exact ⟨trivial, hwords.of_cons⟩
    · simp at h
  · simp at h

theorem sepBy_yields {α : Type} {item : Parser α} {P : α → Prop} (hitem : Yields item P) (separator : Token)
    (count : Nat) : Yields (sepBy separator item count) fun l => l ≠ [] ∧ ∀ a ∈ l, P a := by
  induction count with
  | zero => exact fun _ _ _ _ h => by simp [sepBy] at h
  | succ count ih =>
    intro tokens l rest hwords h
    unfold sepBy at h
    obtain ⟨⟨first, after⟩, hfirst, h⟩ := Option.bind_eq_some_iff.mp h
    obtain ⟨hP, hafter⟩ := hitem tokens first after hwords hfirst
    dsimp only at h
    split at h
    · split at h
      · obtain ⟨⟨others, after'⟩, hothers, h⟩ := Option.bind_eq_some_iff.mp h
        obtain ⟨rfl, rfl⟩ := Prod.mk.inj (Option.some.inj h)
        obtain ⟨⟨-, hPs⟩, hrest⟩ := ih _ _ _ hafter.of_cons hothers
        exact ⟨⟨by simp, List.forall_mem_cons.mpr ⟨hP, hPs⟩⟩, hrest⟩
      · obtain ⟨rfl, rfl⟩ := Prod.mk.inj (Option.some.inj h)
        exact ⟨⟨by simp, by simpa using hP⟩, hafter⟩
    · obtain ⟨rfl, rfl⟩ := Prod.mk.inj (Option.some.inj h)
      exact ⟨⟨by simp, by simpa using hP⟩, hafter⟩

theorem worded_afterMarker? {tokens rest : List Token} (hwords : Worded tokens) (h : afterMarker? tokens = some rest) :
    Worded rest := by
  unfold afterMarker? at h
  split at h
  · obtain rfl := Option.some.inj h
    exact fun name hname => hwords name (by simp [hname])
  · obtain rfl := Option.some.inj h
    exact fun name hname => hwords name (by simp [hname])
  · obtain rfl := Option.some.inj h
    exact fun name hname => hwords name (by simp [hname])
  · simp at h

section Readers

variable {read : Parser Expr} (hread : Yields read IsBuilt) (count : Nat)
include hread

theorem operand_yields : Yields (operand read count) fun e => e.IsBuilt ∧ e.isComparable = true := by
  intro tokens e rest hwords h
  unfold operand at h
  split at h
  · next space name rest' =>
    obtain ⟨rfl, rfl⟩ := Prod.mk.inj (Option.some.inj h)
    refine ⟨⟨.intro ⟨hwords _ (by simp), hwords _ (by simp)⟩ (by simp [Expr.operands]), rfl⟩, ?_⟩
    exact fun name hname => hwords name (by simp [hname])
  · next space name tokens' _ =>
    obtain ⟨⟨arguments, after⟩, harguments, h⟩ := Option.bind_eq_some_iff.mp h
    obtain ⟨⟨_, after'⟩, hclose, h⟩ := Option.bind_eq_some_iff.mp h
    obtain ⟨rfl, rfl⟩ := Prod.mk.inj (Option.some.inj h)
    have hwords' : Worded tokens' := hwords.of_cons.of_cons.of_cons.of_cons
    obtain ⟨⟨-, hbuilt⟩, hafter⟩ := sepBy_yields hread .comma count _ _ _ hwords' harguments
    exact ⟨⟨.intro ⟨hwords _ (by simp), hwords _ (by simp)⟩ hbuilt, rfl⟩, (expect_yields _ _ _ _ hafter hclose).2⟩
  · obtain ⟨rfl, rfl⟩ := Prod.mk.inj (Option.some.inj h)
    exact ⟨Expr.isBuilt_ofWord (hwords _ (by simp)), hwords.of_cons⟩
  · obtain ⟨rfl, rfl⟩ := Prod.mk.inj (Option.some.inj h)
    exact ⟨⟨.intro trivial (by simp [Expr.operands]), rfl⟩, hwords.of_cons⟩
  · obtain ⟨rfl, rfl⟩ := Prod.mk.inj (Option.some.inj h)
    exact ⟨⟨.intro trivial (by simp [Expr.operands]), rfl⟩, hwords.of_cons⟩
  · simp at h

theorem comparison_yields : Yields (comparison read count) IsBuilt := by
  intro tokens e rest hwords h
  unfold comparison at h
  obtain ⟨⟨left, after⟩, hleft, h⟩ := Option.bind_eq_some_iff.mp h
  obtain ⟨⟨hleftBuilt, hleftComparable⟩, hafter⟩ := operand_yields hread count _ _ _ hwords hleft
  dsimp only at h
  split at h
  · obtain ⟨⟨right, after'⟩, hright, h⟩ := Option.bind_eq_some_iff.mp h
    obtain ⟨rfl, rfl⟩ := Prod.mk.inj (Option.some.inj h)
    obtain ⟨⟨hrightBuilt, hrightComparable⟩, hrest⟩ := operand_yields hread count _ _ _ hafter.of_cons hright
    exact ⟨.intro ⟨hleftComparable, hrightComparable⟩ (by simp [Expr.operands, hleftBuilt, hrightBuilt]), hrest⟩
  · obtain ⟨rfl, rfl⟩ := Prod.mk.inj (Option.some.inj h)
    exact ⟨hleftBuilt, hafter⟩

theorem closed_yields {tokens rest rest' : List Token} {e : Expr} (hwords : Worded tokens)
    (he : read tokens = some (e, rest)) (hclose : expect .rightParen rest = some ((), rest')) :
    e.IsBuilt ∧ Worded rest' := by
  obtain ⟨hbuilt, hrest⟩ := hread _ _ _ hwords he
  exact ⟨hbuilt, (expect_yields _ _ _ _ hrest hclose).2⟩

theorem primary_yields : Yields (primary read count) IsBuilt := by
  intro tokens e rest hwords h
  unfold primary at h
  split at h
  · next marked hmarker =>
    obtain ⟨⟨body, after⟩, hbody, h⟩ := Option.bind_eq_some_iff.mp h
    obtain ⟨⟨_, after'⟩, hclose, h⟩ := Option.bind_eq_some_iff.mp h
    obtain ⟨rfl, rfl⟩ := Prod.mk.inj (Option.some.inj h)
    obtain ⟨hbuilt, hrest⟩ := closed_yields hread (worded_afterMarker? hwords hmarker) hbody hclose
    exact ⟨.intro trivial (by simpa [Expr.operands] using hbuilt), hrest⟩
  · split at h
    · obtain ⟨⟨body, after⟩, hbody, h⟩ := Option.bind_eq_some_iff.mp h
      obtain ⟨⟨_, after'⟩, hclose, h⟩ := Option.bind_eq_some_iff.mp h
      obtain ⟨rfl, rfl⟩ := Prod.mk.inj (Option.some.inj h)
      exact closed_yields hread hwords.of_cons hbody hclose
    · exact comparison_yields hread count _ _ _ hwords h

theorem unary_yields : Yields (unary read count) IsBuilt := by
  intro tokens
  fun_induction unary read count tokens with
  | case1 tokens ih =>
    intro e rest hwords h
    obtain ⟨⟨e', rest'⟩, hread', heq⟩ := Option.map_eq_some_iff.mp h
    obtain ⟨rfl, rfl⟩ := Prod.mk.inj heq
    obtain ⟨hbuilt, hrest⟩ := ih _ _ hwords.of_cons hread'
    exact ⟨.intro trivial (by simpa [Expr.operands] using hbuilt), hrest⟩
  | case2 tokens => exact fun e rest hwords h => primary_yields hread count _ _ _ hwords h

theorem conjunction_yields : Yields (conjunction read count) IsBuilt := by
  intro tokens e rest hwords h
  obtain ⟨⟨es, rest'⟩, hes, heq⟩ := Option.map_eq_some_iff.mp h
  obtain ⟨rfl, rfl⟩ := Prod.mk.inj heq
  obtain ⟨⟨hne, hbuilt⟩, hrest⟩ := sepBy_yields (unary_yields hread count) .and count _ _ _ hwords hes
  exact ⟨Expr.isBuilt_conjunction hne hbuilt, hrest⟩

theorem disjunction_yields : Yields (disjunction read count) IsBuilt := by
  intro tokens e rest hwords h
  obtain ⟨⟨es, rest'⟩, hes, heq⟩ := Option.map_eq_some_iff.mp h
  obtain ⟨rfl, rfl⟩ := Prod.mk.inj heq
  obtain ⟨⟨hne, hbuilt⟩, hrest⟩ := sepBy_yields (conjunction_yields hread count) .or count _ _ _ hwords hes
  exact ⟨Expr.isBuilt_disjunction hne hbuilt, hrest⟩

end Readers

theorem expr_yields (depth : Nat) : Yields (expr depth) IsBuilt := by
  induction depth with
  | zero => exact fun _ _ _ _ h => by simp [expr] at h
  | succ depth ih => exact disjunction_yields ih depth

end Parser

namespace Expr

/-- The expression of a text is of the kind that a parser builds. -/
theorem isBuilt_of_parse? {text : String} {e : Expr} (h : parse? text = some e) : e.IsBuilt := by
  unfold parse? at h
  obtain ⟨tokens, htokens, h⟩ := Option.bind_eq_some_iff.mp h
  split at h
  · next e' hread =>
    obtain rfl := Option.some.inj h
    exact (Parser.expr_yields _ _ _ _ (fun _ => isName_of_mem_tokenize htokens) hread).1
  · simp at h

theorem IsBuilt.isNormal {e : Expr} (h : e.IsBuilt)
    (hread : e.Everywhere fun d => ∀ x, d.kind = .literal (.number x) → ReadsBack x) : e.IsNormal literalWords := by
  induction h with
  | @intro e hshaped _ ih =>
    obtain ⟨hhere, hbelow⟩ := hread
    have hnormal : ∀ d ∈ e.operands, d.IsNormal literalWords := fun d hd => ih d hd (hbelow d hd)
    cases e with
    | and operands => exact .and hshaped.1 hshaped.2 hnormal
    | or operands => exact .or hshaped.1 hshaped.2 hnormal
    | not e => exact .not (hnormal e (by simp [operands]))
    | delayed e => exact .delayed (hnormal e (by simp [operands]))
    | function space name arguments => exact .function hshaped.1 hshaped.2 hnormal
    | comparison op left right =>
      exact .comparison hshaped.1 hshaped.2 (hnormal left (by simp [operands])) (hnormal right (by simp [operands]))
    | identifier name => exact .identifier hshaped.1 hshaped.2
    | literal value =>
      apply IsNormal.literal
      cases value with
      | number x => exact hhere x rfl
      | _ => trivial

end Expr

end ProximitySearch.Query
