import ProximitySearch.Proofs.NormalTree
import ProximitySearch.Proofs.ParsedExpressions
import ProximitySearch.Proximity.Call

/-!
# Queries that were rendered

The tree of any query text, whose numbers read back, has a text that parses. It parses to the same tree just
if a conjunction that starts with `_Delayed_ == true` stands right below the script or nowhere: anywhere else
it is printed in parentheses, and reads like a delayed expression (`Tree.parse_render_of_parse`). So the
proximity functions of a query are those of its rendering, unless there is such a conjunction
(`Space.ofTree_rendered`), and where there is one, a function that was not negated may come back negated.
-/

namespace ProximitySearch.Query

namespace Expr

theorem eq_of_kind_of_operands {e e' : Expr} (hkind : e.kind = e'.kind) (hoperands : e.operands = e'.operands) :
    e = e' := by
  cases e <;> cases e' <;> simp_all [kind, operands]

theorem kind_eq_identifier {e : Expr} {name : String} : e.kind = .identifier name ↔ e = .identifier name := by
  cases e <;> simp [kind]

theorem kind_eq_literal {e : Expr} {value : Literal} : e.kind = .literal value ↔ e = .literal value := by
  cases e <;> simp [kind]

end Expr

namespace Tree

/-- Whether a node is the comparison `_Delayed_ == true`. -/
def isMarkerComparison (t : Tree) (id : Nat) : Bool :=
  match t.node? id with
  | some ⟨.comparison .eq, _, [left, right]⟩ =>
    decide (t.kind? left = some (.identifier "_Delayed_") ∧ t.kind? right = some (.literal (.boolean true)))
  | _ => false

/-- Whether a node is a conjunction that is written like a delayed expression, once it stands in parentheses. -/
def isDisguised (t : Tree) : Node → Bool
  | ⟨.and, _, first :: _⟩ => t.isMarkerComparison first
  | _ => false

/-- A conjunction that is written like a delayed expression stands where it needs no parentheses. -/
def StandsPlain (t : Tree) (id : Nat) : Prop :=
  ∀ node, t.node? id = some node → t.isDisguised node = true → node.parent = some root

/-- Numbers among the literals are read back from their texts. -/
def NumbersReadBack (t : Tree) : Prop :=
  ∀ node ∈ t.nodes, ∀ x, node.kind = .literal (.number x) → ReadsBack x

variable {t : Tree}

namespace Layout

variable {parent id next : Nat} {es es' : List Expr} {ids : List Nat}

theorem expr_unique {next' : Nat} (h : t.Layout parent id es ids next) (h' : t.Layout parent id es' ids next') :
    es = es' ∧ next = next' := by
  induction h generalizing es' next' with
  | nil =>
    cases h' with
    | nil => exact ⟨rfl, rfl⟩
  | cons hnode hbelow hothers ihbelow ihothers =>
    cases h' with
    | cons hnode' hbelow' hothers' =>
      obtain ⟨hkind, -, rfl⟩ := Node.mk.inj (Option.some.inj (hnode.symm.trans hnode'))
      obtain ⟨hoperands, rfl⟩ := ihbelow hbelow'
      obtain ⟨rfl, rfl⟩ := ihothers hothers'
      exact ⟨congrArg (· :: _) (Expr.eq_of_kind_of_operands hkind hoperands), rfl⟩

theorem everywhere {P : NodeKind → Prop} (h : t.Layout parent id es ids next) (hP : ∀ node ∈ t.nodes, P node.kind) :
    ∀ e ∈ es, e.Everywhere fun d => P d.kind := by
  induction h with
  | nil => simp
  | cons hnode hbelow hothers ihbelow ihothers =>
    exact List.forall_mem_cons.mpr ⟨.intro (hP _ (List.mem_of_getElem? hnode)) ihbelow, ihothers⟩

theorem isMarkerComparison (h : t.Layout parent id es ids next) :
    ids.map t.isMarkerComparison = es.map Expr.isMarkerComparison := by
  induction h with
  | nil => rfl
  | @cons parent id next last e others below ids hnode hbelow hothers ihbelow ihothers =>
    rw [List.map_cons, List.map_cons, ihothers]
    congr 1
    rw [Tree.isMarkerComparison, hnode]
    cases e with
    | comparison op left right =>
      obtain ⟨i, j, rfl⟩ := List.length_eq_two.mp hbelow.length_ids
      obtain ⟨hleft, hright⟩ : t.kind? i = some left.kind ∧ t.kind? j = some right.kind := by
        simpa [Expr.operands] using hbelow.kinds
      rw [Bool.eq_iff_iff, Expr.isMarkerComparison_iff]
      cases op with
      | eq =>
        change decide (t.kind? i = some _ ∧ t.kind? j = some _) = true ↔ _
        rw [hleft, hright, decide_eq_true_iff]
        simp [Expr.kind_eq_identifier, Expr.kind_eq_literal]
      | _ => simp [Expr.kind]
    | _ => rfl

theorem isDisguised {e : Expr} {above : Option Nat} (h : t.Layout parent id e.operands ids next) :
    t.isDisguised ⟨e.kind, above, ids⟩ = e.isDisguised := by
  have hmarkers := h.isMarkerComparison
  cases e with
  | and operands =>
    cases h with
    | nil => rfl
    | cons => exact (List.cons.inj hmarkers).1
  | _ => rfl

/-- Behind the script, what is disguised in the tree is what is disguised in the expressions. -/
theorem undisguised_iff (h : t.Layout parent id es ids next) (hid : root < id) :
    (∀ i, id ≤ i → i < next → t.StandsPlain i) ↔ ∀ e ∈ es, e.Undisguised ∧ (e.isDisguised = true → parent = root) := by
  induction h with
  | nil => exact iff_of_true (fun i hi hlt => absurd hi (Nat.not_le_of_lt hlt)) (by simp)
  | @cons parent id mid last e others below ids hnode hbelow hothers ihbelow ihothers =>
    have hmid := hbelow.le
    have hlast := hothers.le
    have hsplit : (∀ i, id ≤ i → i < last → t.StandsPlain i) ↔ t.StandsPlain id ∧
        (∀ i, id + 1 ≤ i → i < mid → t.StandsPlain i) ∧ ∀ i, mid ≤ i → i < last → t.StandsPlain i := by
      constructor
      · exact fun h => ⟨h id (by omega) (by omega), fun i hi hlt => h i (by omega) (by omega),
          fun i hi hlt => h i (by omega) hlt⟩
      · rintro ⟨hhere, hbelow, hothers⟩ i hi hlt
        by_cases hmid : i < mid
        · rcases Nat.eq_or_lt_of_le hi with rfl | hi
          · exact hhere
          · exact hbelow i hi hmid
        · exact hothers i (Nat.le_of_not_lt hmid) hlt
    have hhere : t.StandsPlain id ↔ (e.isDisguised = true → parent = root) := by
      simp [StandsPlain, hnode, hbelow.isDisguised]
    have hundisguised : e.Undisguised ↔ ∀ d ∈ e.operands, d.Undisguised ∧ (d.isDisguised = true → id = root) := by
      constructor
      · rintro ⟨hplain, hbelow⟩ d hd
        exact ⟨hbelow d hd, fun hdisguised => absurd hdisguised (Bool.eq_false_iff.mp (hplain d hd))⟩
      · intro h
        refine .intro (fun d hd => Bool.eq_false_iff.mpr fun hdisguised => ?_) fun d hd => (h d hd).1
        exact absurd ((h d hd).2 hdisguised) (Nat.ne_of_gt hid)
    rw [hsplit, hhere, ihbelow (Nat.lt_succ_of_lt hid), ihothers (Nat.lt_of_lt_of_le hid (by omega)),
      List.forall_mem_cons, hundisguised, and_left_comm, and_assoc]

end Layout

theorem ofExpr_inj {e e' : Expr} : ofExpr e = ofExpr e' ↔ e = e' := by
  constructor
  · intro h
    obtain ⟨-, hlayout⟩ := layout_ofExpr e
    obtain ⟨-, hlayout'⟩ := layout_ofExpr e'
    rw [h] at hlayout
    simpa using (hlayout.expr_unique hlayout').1
  · rintro rfl
    rfl

theorem undisguised_iff_ofExpr (e : Expr) : (∀ id, (ofExpr e).StandsPlain id) ↔ e.Undisguised := by
  obtain ⟨hscript, hlayout⟩ := layout_ofExpr e
  have hiff := hlayout.undisguised_iff Nat.one_pos
  simp only [List.mem_singleton, forall_eq, implies_true, and_true] at hiff
  rw [← hiff]
  constructor
  · exact fun h i _ _ => h i
  · intro h i
    by_cases hlt : i < (ofExpr e).size
    · rcases Nat.eq_zero_or_pos i with rfl | hpos
      · intro node hnode hdisguised
        obtain rfl := Option.some.inj (hscript.symm.trans hnode)
        simp [isDisguised] at hdisguised
      · exact h i hpos hlt
    · intro node hnode
      rw [node?, List.getElem?_eq_none (Nat.le_of_not_lt hlt)] at hnode
      simp at hnode

/-- The tree of a text has a text in its turn, which parses, and to the same tree just if nothing in the tree is
disguised. -/
theorem parse_render_of_parse {text : String} (h : parse text = .ok t) (hnumbers : t.NumbersReadBack) :
    ∃ text' t', t.render? = some text' ∧ parse text' = .ok t' ∧ (t' = t ↔ ∀ id, t.StandsPlain id) := by
  unfold parse at h
  split at h
  · next e hparse =>
    obtain rfl := Except.ok.inj h
    obtain ⟨hscript, hlayout⟩ := layout_ofExpr e
    have hread := hlayout.everywhere (P := fun kind => ∀ x, kind = .literal (.number x) → ReadsBack x) hnumbers e
      (List.mem_singleton_self e)
    have hnormal : e.IsNormal literalWords := (Expr.isBuilt_of_parse? hparse).isNormal hread
    refine ⟨_, ofExpr e.reread, render?_of_layout hscript hlayout, ?_, ?_⟩
    · rw [parse, Expr.parse?_text_eq_reread hnormal]
    · rw [ofExpr_inj, Expr.reread_eq_self_iff, undisguised_iff_ofExpr]
  · simp at h

end Tree

end ProximitySearch.Query

namespace ProximitySearch.Proximity

open Query (Tree parse)

/-- The functions of a query are those of its rendering, which parses, if nothing in the query is disguised. -/
theorem Space.ofTree_rendered {text : String} {t : Tree} (h : parse text = .ok t) (hnumbers : t.NumbersReadBack) :
    ∃ text' t', t.render? = some text' ∧ parse text' = .ok t' ∧
      ((∀ id, t.StandsPlain id) → ∀ config known, ofTree config known t' = ofTree config known t) := by
  obtain ⟨text', t', hrender, hparse, hsame⟩ := Tree.parse_render_of_parse h hnumbers
  refine ⟨text', t', hrender, hparse, fun hplain config known => ?_⟩
  rw [hsame.mpr hplain]

/-- The tree of `(SIZE >= 3) && !content:phrase(TEXT, termOffsetMap, 'fox')`. -/
def negatedPhrase : Tree := ⟨[
  ⟨.script, none, [1]⟩,
  ⟨.and, some 0, [2, 5]⟩,
  ⟨.comparison .ge, some 1, [3, 4]⟩,
  ⟨.identifier "SIZE", some 2, []⟩,
  ⟨.literal (.number 3), some 2, []⟩,
  ⟨.not, some 1, [6]⟩,
  ⟨.function "content" "phrase", some 5, [7, 8, 9]⟩,
  ⟨.identifier "TEXT", some 6, []⟩,
  ⟨.identifier "termOffsetMap", some 6, []⟩,
  ⟨.literal (.string "fox"), some 6, []⟩]⟩

theorem Space.ofTree_rendered_negatedPhrase :
    parse "SIZE>=3.0&&! ( content:phrase( TEXT,termOffsetMap,\"fox\" ) )" = .ok negatedPhrase ∧
    negatedPhrase.NumbersReadBack ∧ (∀ id, negatedPhrase.StandsPlain id) ∧
    ∃ text t, negatedPhrase.render? = some text ∧ parse text = .ok t ∧
      ∀ config known, ofTree config known t = ofTree config known negatedPhrase := by
  have hparse : parse "SIZE>=3.0&&! ( content:phrase( TEXT,termOffsetMap,\"fox\" ) )" = .ok negatedPhrase := by
    decide +kernel
  have hnumbers : negatedPhrase.NumbersReadBack := by
    have hthree : Query.ReadsBack 3 := ⟨by decide +kernel, by decide +kernel, by decide +kernel⟩
    simp [Tree.NumbersReadBack, negatedPhrase, hthree]
  have hplain : ∀ id, negatedPhrase.StandsPlain id := by
    have hnone : ∀ node ∈ negatedPhrase.nodes, negatedPhrase.isDisguised node = false := by decide
    intro id node hnode hdisguised
    exact absurd hdisguised (Bool.eq_false_iff.mp (hnone node (List.mem_of_getElem? hnode)))
  obtain ⟨text, t, hrender, hparse', hsame⟩ := Space.ofTree_rendered hparse hnumbers
  exact ⟨hparse, hnumbers, hplain, text, t, hrender, hparse', hsame hplain⟩

theorem Space.ofTree_phrase {config : FunctionConfig} {known : FieldValues} {t : Tree} {id first second third : Nat}
    {field value : String} (hcalls : t.functions config.namespaceName = [(id, "phrase")])
    (hchildren : t.children id = [first, second, third])
    (hfirst : t.node? first = some ⟨.identifier field, some id, []⟩) (hfield : field ≠ config.offsetPlaceholder)
    (hthird : t.node? third = some ⟨.literal (.string value), some id, []⟩) :
    ofTree config known t = .ok (ofDescriptors [⟨.phrase, t.isNegated id, .ofList [field], .ofList [value]⟩]) := by
  have hidentifiers : t.identifiersIn first = [field] := Tree.identifiersIn_of_leaf hfirst
  have hliterals : t.literalsIn third = [.string value] := Tree.literalsIn_of_leaf hthird
  have homitted : isFieldOmitted config t first = false := by simp [isFieldOmitted, Tree.kind?, hfirst, hfield]
  have hterms : termValues .phrase [.string value] = .ok [value] := rfl
  have hread : readCall config known t id .phrase =
      .ok ⟨.phrase, t.isNegated id, .ofList [field], .ofList [value]⟩ := by
    simp only [readCall, hchildren, homitted, Kind.valueOffset, Bool.false_eq_true, if_false, List.drop_succ_cons,
      List.drop_zero, List.flatMap_cons, List.flatMap_nil, List.append_nil, hliterals, hidentifiers, hterms]
    rfl
  have hof : Kind.ofName? "phrase" = some .phrase := rfl
  simp only [ofTree, readCalls, hcalls, List.filterMap_cons, hof, Option.map_some, List.filterMap_nil, List.mapM_cons,
    List.mapM_nil, hread]
  rfl

/-- The tree of `EMPTY || (_Delayed_ == true && content:phrase(TEXT, termOffsetMap, 'fox'))`. -/
def disguisedPhrase : Tree := ⟨[
  ⟨.script, none, [1]⟩,
  ⟨.or, some 0, [2, 3]⟩,
  ⟨.identifier "EMPTY", some 1, []⟩,
  ⟨.and, some 1, [4, 7]⟩,
  ⟨.comparison .eq, some 3, [5, 6]⟩,
  ⟨.identifier "_Delayed_", some 4, []⟩,
  ⟨.literal (.boolean true), some 4, []⟩,
  ⟨.function "content" "phrase", some 3, [8, 9, 10]⟩,
  ⟨.identifier "TEXT", some 7, []⟩,
  ⟨.identifier "termOffsetMap", some 7, []⟩,
  ⟨.literal (.string "fox"), some 7, []⟩]⟩

/-- The tree that its rendering has. -/
def delayedPhrase : Tree := ⟨[
  ⟨.script, none, [1]⟩,
  ⟨.or, some 0, [2, 3]⟩,
  ⟨.identifier "EMPTY", some 1, []⟩,
  ⟨.delayed, some 1, [4]⟩,
  ⟨.function "content" "phrase", some 3, [5, 6, 7]⟩,
  ⟨.identifier "TEXT", some 4, []⟩,
  ⟨.identifier "termOffsetMap", some 4, []⟩,
  ⟨.literal (.string "fox"), some 4, []⟩]⟩

/-- A function that is not negated may be negated in the rendering. -/
theorem Space.ofTree_rendered_ne : ¬∀ text t, parse text = .ok t → ∃ text' t', t.render? = some text' ∧
    parse text' = .ok t' ∧ ∀ config known, ofTree config known t' = ofTree config known t := by
  intro hsame
  obtain ⟨text', t', hrender, hparse, hsame⟩ :=
    hsame "EMPTY || (_Delayed_ == true && content:phrase(TEXT, termOffsetMap, 'fox'))" disguisedPhrase
      (by decide +kernel)
  have htext : disguisedPhrase.render? =
      some "EMPTY || ((_Delayed_ == true) && content:phrase(TEXT, termOffsetMap, 'fox'))" := by decide +kernel
  obtain rfl := Option.some.inj (htext.symm.trans hrender)
  have htree : parse "EMPTY || ((_Delayed_ == true) && content:phrase(TEXT, termOffsetMap, 'fox'))" =
      .ok delayedPhrase := by decide +kernel
  obtain rfl := Except.ok.inj (htree.symm.trans hparse)
  have hplain : ofTree .standard ∅ disguisedPhrase =
      .ok (ofDescriptors [⟨.phrase, disguisedPhrase.isNegated 7, .ofList ["TEXT"], .ofList ["fox"]⟩]) :=
    ofTree_phrase rfl rfl rfl (by decide) rfl
  have hnegated : ofTree .standard ∅ delayedPhrase =
      .ok (ofDescriptors [⟨.phrase, delayedPhrase.isNegated 4, .ofList ["TEXT"], .ofList ["fox"]⟩]) :=
    ofTree_phrase rfl rfl rfl (by decide) rfl
  have hequal := hnegated.symm.trans ((hsame .standard ∅).trans hplain)
  exact absurd (Except.ok.inj hequal) (by decide +kernel)

end ProximitySearch.Proximity
