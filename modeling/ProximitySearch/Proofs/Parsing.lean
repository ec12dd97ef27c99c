import ProximitySearch.Proofs.Disguises
import ProximitySearch.Query.Parser

/-!
# Parsing printed expressions

A parser reads an expression off the front of the tokens of a normal one, if it may nest deeper than they are
many. It is the same expression (`parse?_text`), but for a slip: the marker of a delayed expression starts
like an ordinary group, and a conjunction in parentheses whose first operand is the comparison
`_Delayed_ == true` is taken for one (`afterMarker?_disguised`), while nothing else is (`afterMarker?_group`).
So what is read back has a delayed expression in the place of each such conjunction (`Expr.reread`,
`parse?_text_eq_reread`). Where no identifier is the word of the marker there is none.

The induction is on the expression, and speaks of it at three places: as a whole, as an operand of an
operator, and as an operand of a comparison (`Parses`).
-/

namespace ProximitySearch.Query

namespace Parser

/-! ## The marker -/

def isMarked : List Token → Bool
  | .identifier "_Delayed_" :: .assign :: _ => true
  | .identifier "_Delayed_" :: .compare .eq :: _ => true
  | _ => false

theorem afterMarker?_parens {tokens : List Token} (h : isMarked tokens = false) :
    afterMarker? (.leftParen :: .leftParen :: tokens) = none := by
  unfold afterMarker?
  split
  · next heq => simp_all [isMarked]
  · next heq => simp_all [isMarked]
  · next heq => simp_all [isMarked]
  · rfl

theorem afterMarker?_of_ne {t : Token} {tokens : List Token} (h : t ≠ .leftParen) :
    afterMarker? (.leftParen :: t :: tokens) = none := by
  unfold afterMarker?
  split
  · next heq => simp_all
  · next heq => simp_all
  · next heq => simp_all
  · rfl

theorem isMarked_literal (value : Literal) (rest : List Token) : isMarked (value.token :: rest) = false := by
  cases value with
  | boolean b => cases b <;> rfl
  | _ => rfl

theorem joinTokens_operands (t : Token) (e : Expr) (others : List Expr) :
    joinTokens t (Expr.operandTokens (e :: others)) =
      wrap e.isCompound e.tokens ++ (Expr.operandTokens others).flatMap fun tokens => t :: tokens := by
  rw [Expr.operandTokens, joinTokens]

/-- An operand starts like the inside of a marker only if it is a word, and the sign comes right after it. -/
theorem isMarked_operand (e : Expr) {rest : List Token}
    (hrest : ∀ t ∈ rest.head?, t ≠ .assign ∧ t ≠ .compare .eq) :
    isMarked (wrap e.isCompound e.tokens ++ rest) = false := by
  cases e with
  | and operands => rfl
  | or operands => rfl
  | comparison op left right => rfl
  | not e =>
    rw [Expr.tokens]
    rfl
  | delayed e =>
    rw [Expr.tokens]
    rfl
  | function space name arguments =>
    rw [Expr.tokens]
    simp [wrap, Expr.isCompound, isMarked]
  | literal value =>
    rw [Expr.tokens]
    exact isMarked_literal value rest
  | identifier name =>
    rw [Expr.tokens]
    cases rest with
    | nil => simp [wrap, Expr.isCompound, isMarked]
    | cons t rest =>
      obtain ⟨hassign, hequal⟩ := hrest t rfl
      change isMarked (.identifier name :: t :: rest) = false
      unfold isMarked
      split
      · next heq => simp_all
      · next heq => simp_all
      · rfl

theorem isMarked_list {t : Token} (ht : t = .and ∨ t = .or) {operands : List Expr} (hlen : 2 ≤ operands.length)
    (rest : List Token) : isMarked (joinTokens t (Expr.operandTokens operands) ++ rest) = false := by
  match operands, hlen with
  | first :: second :: others, _ =>
    rw [joinTokens_operands, List.append_assoc]
    apply isMarked_operand
    intro u hu
    obtain rfl : t = u := by simpa [Expr.operandTokens] using hu
    rcases ht with rfl | rfl
    · simp
    · simp

/-- A comparison in two pairs of parentheses, and something after the first of them, is taken for a marker only if it is
the one of a marker and a conjunction goes on behind it. -/
theorem afterMarker?_comparison {op : CompareOp} {left right : Expr} (hleft : left.isComparable = true)
    (hright : right.isComparable = true) (hword : right ≠ .identifier "true") {t : Token}
    (ht : t = .and → (Expr.comparison op left right).isMarkerComparison = false) (rest : List Token) :
    afterMarker? (.leftParen :: .leftParen :: ((Expr.comparison op left right).tokens ++ .rightParen :: t :: rest)) =
      none := by
  rw [Expr.tokens, List.append_assoc, List.cons_append]
  cases left with
  | function space name arguments =>
    apply afterMarker?_parens
    rw [Expr.tokens]
    simp [isMarked]
  | literal value =>
    apply afterMarker?_parens
    rw [Expr.tokens]
    exact isMarked_literal value _
  | identifier name =>
    rw [Expr.tokens, List.singleton_append]
    by_cases hmarked : name = "_Delayed_" ∧ op = .eq
    · obtain ⟨rfl, rfl⟩ := hmarked
      cases right with
      | function space name arguments =>
        rw [Expr.tokens]
        simp [afterMarker?]
      | identifier name =>
        rw [Expr.tokens]
        have hname : name ≠ "true" := fun h => hword (congrArg Expr.identifier h)
        simp [afterMarker?, hname]
      | literal value =>
        rw [Expr.tokens]
        have hnot : value.token = .identifier "true" → t ≠ .and := by
          rintro hvalue rfl
          cases value with
          | boolean b =>
            cases b with
            | true => exact absurd (ht rfl) (by simp [Expr.isMarkerComparison])
            | false => simp [Literal.token, booleanText] at hvalue
          | _ => simp [Literal.token] at hvalue
        rw [List.singleton_append]
        unfold afterMarker?
        split
        · next heq => simp_all
        · next heq => simp_all
        · next heq => simp_all
        · rfl
      | _ => simp [Expr.isComparable] at hright
    · apply afterMarker?_parens
      unfold isMarked
      split
      · next heq => simp_all
      · next heq => simp_all
      · rfl
  | _ => simp [Expr.isComparable] at hleft

theorem tokens_of_isComparable {e : Expr} (h : e.isComparable = true) :
    ∃ t rest, e.tokens = t :: rest ∧ t ≠ .leftParen ∧ t ≠ .not := by
  cases e with
  | function space name arguments => exact ⟨_, _, by rw [Expr.tokens], by simp, by simp⟩
  | identifier name => exact ⟨_, _, by rw [Expr.tokens], by simp, by simp⟩
  | literal value => exact ⟨_, _, by rw [Expr.tokens], by cases value <;> simp [Literal.token],
      by cases value <;> simp [Literal.token]⟩
  | _ => simp [Expr.isComparable] at h

theorem afterMarker?_simple {e : Expr} (h : e.isCompound = false) (rest : List Token) :
    afterMarker? (.leftParen :: (e.tokens ++ rest)) = none := by
  cases e with
  | not e =>
    rw [Expr.tokens]
    exact afterMarker?_of_ne (by simp)
  | delayed e =>
    rw [Expr.tokens]
    exact afterMarker?_parens rfl
  | function space name arguments =>
    rw [Expr.tokens]
    exact afterMarker?_of_ne (by simp)
  | identifier name =>
    rw [Expr.tokens]
    exact afterMarker?_of_ne (by simp)
  | literal value =>
    rw [Expr.tokens]
    exact afterMarker?_of_ne (by cases value <;> simp [Literal.token])
  | _ => simp [Expr.isCompound] at h

theorem afterMarker?_operand {e : Expr} (h : e.IsNormal literalWords) {t : Token}
    (hmarker : t = .and → e.isMarkerComparison = false) (rest : List Token) :
    afterMarker? (.leftParen :: (wrap e.isCompound e.tokens ++ t :: rest)) = none := by
  cases hcompound : e.isCompound with
  | false => exact afterMarker?_simple hcompound _
  | true =>
    change afterMarker? (.leftParen :: .leftParen :: ((e.tokens ++ [.rightParen]) ++ t :: rest)) = none
    rw [List.append_assoc]
    cases h with
    | and hlen =>
      apply afterMarker?_parens
      rw [Expr.tokens]
      exact isMarked_list (.inl rfl) hlen _
    | or hlen =>
      apply afterMarker?_parens
      rw [Expr.tokens]
      exact isMarked_list (.inr rfl) hlen _
    | @comparison op left right hleft hright _ hrightNormal =>
      have hword : right ≠ .identifier "true" := by
        rintro rfl
        cases hrightNormal with
        | identifier _ hfree => exact hfree (by decide)
      exact afterMarker?_comparison hleft hright hword hmarker rest
    | _ => simp [Expr.isCompound] at hcompound

theorem exists_first_second {operands : List Expr} (hlen : 2 ≤ operands.length) :
    ∃ first second others, operands = first :: second :: others := by
  match operands, hlen with
  | first :: second :: others, _ => exact ⟨first, second, others, rfl⟩

/-- A normal expression in parentheses does not start like a marker, unless it is disguised. -/
theorem afterMarker?_group {e : Expr} (h : e.IsNormal literalWords) (hplain : e.isDisguised = false)
    (rest : List Token) : afterMarker? (.leftParen :: (e.tokens ++ rest)) = none := by
  cases hcompound : e.isCompound with
  | false => exact afterMarker?_simple hcompound rest
  | true =>
    cases h with
    | @and operands hlen _ hoperands =>
      obtain ⟨first, second, others, rfl⟩ := exists_first_second hlen
      rw [Expr.tokens, joinTokens_operands, List.append_assoc]
      exact afterMarker?_operand (hoperands first (by simp)) (fun _ => hplain) _
    | @or operands hlen _ hoperands =>
      obtain ⟨first, second, others, rfl⟩ := exists_first_second hlen
      rw [Expr.tokens, joinTokens_operands, List.append_assoc]
      exact afterMarker?_operand (hoperands first (by simp)) (by simp) _
    | comparison hleft =>
      obtain ⟨t, tail, htokens, hparen, -⟩ := tokens_of_isComparable hleft
      rw [Expr.tokens, htokens]
      exact afterMarker?_of_ne hparen
    | _ => simp [Expr.isCompound] at hcompound

/-- A disguised conjunction in parentheses is taken for a delayed expression, with its other operands delayed. -/
theorem afterMarker?_disguised {first : Expr} (h : first.isMarkerComparison = true) {others : List Expr}
    (hne : others ≠ []) (rest : List Token) :
    afterMarker? (.leftParen :: ((Expr.and (first :: others)).tokens ++ rest)) =
      some (joinTokens .and (Expr.operandTokens others) ++ rest) := by
  obtain ⟨second, others, rfl⟩ := List.exists_cons_of_ne_nil hne
  rw [Expr.tokens, joinTokens_operands, joinTokens_operands, Expr.isMarkerComparison_iff.mp h, Expr.operandTokens]
  simp [wrap, Expr.isCompound, Expr.tokens, Literal.token, booleanText, afterMarker?]

/-! ## Lists -/

theorem le_length_joinTokens {t : Token} {lists : List (List Token)} {l : List Token} (h : l ∈ lists) :
    l.length ≤ (joinTokens t lists).length := by
  obtain ⟨first, others, rfl⟩ := List.exists_cons_of_ne_nil (List.ne_nil_of_mem h)
  rw [joinTokens, List.length_append]
  rcases List.mem_cons.mp h with rfl | h
  · omega
  · obtain ⟨before, after, rfl⟩ := List.append_of_mem h
    simp only [List.flatMap_append, List.flatMap_cons, List.length_append, List.length_cons]
    omega

theorem length_le_joinTokens {t : Token} {lists : List (List Token)} (h : ∀ l ∈ lists, l ≠ []) :
    lists.length ≤ (joinTokens t lists).length := by
  cases lists with
  | nil => exact Nat.zero_le _
  | cons first others =>
    have hfirst := List.length_pos_iff.mpr (h first (by simp))
    have hothers : others.length ≤ (others.flatMap fun tokens => t :: tokens).length := by
      clear h hfirst
      induction others with
      | nil => exact Nat.zero_le _
      | cons second others ih =>
        simp only [List.flatMap_cons, List.length_append, List.length_cons]
        omega
    simp only [joinTokens, List.length_append, List.length_cons]
    omega

theorem sepBy_join {α : Type} {item : Parser α} {t : Token} {parts : List (List Token × α)} (hne : parts ≠ [])
    {count : Nat} (hcount : parts.length ≤ count) {rest : List Token} (hrest : ∀ u ∈ rest.head?, u ≠ t)
    (hitem : ∀ part ∈ parts, ∀ tail, tail.head? = some t ∨ tail = rest →
      item (part.1 ++ tail) = some (part.2, tail)) :
    sepBy t item count (joinTokens t (parts.map Prod.fst) ++ rest) = some (parts.map Prod.snd, rest) := by
  induction parts generalizing count with
  | nil => exact absurd rfl hne
  | cons part others ih =>
    obtain ⟨count, rfl⟩ := Nat.exists_eq_add_one.mpr (Nat.lt_of_lt_of_le (Nat.succ_pos _) hcount)
    rw [List.map_cons, List.map_cons, joinTokens, List.append_assoc]
    cases others with
    | nil =>
      -- what follows the last part is no separator
      have hone := hitem part (by simp) rest (.inr rfl)
      simp only [List.map_nil, List.flatMap_nil, List.nil_append]
      rw [sepBy, hone]
      cases rest with
      | nil => rfl
      | cons u rest =>
        have hu : u ≠ t := hrest u rfl
        simp [hu]
    | cons second others =>
      -- a separator follows, and behind it the same list without its first part
      have hmore : (((second :: others).map Prod.fst).flatMap fun tokens => t :: tokens) ++ rest =
          t :: (joinTokens t ((second :: others).map Prod.fst) ++ rest) := by
        rw [List.map_cons, joinTokens, List.flatMap_cons]
        simp
      have hone := hitem part (by simp) (t :: (joinTokens t ((second :: others).map Prod.fst) ++ rest)) (.inl rfl)
      have hothers := ih (by simp) (Nat.le_of_succ_le_succ hcount) fun part hpart =>
        hitem part (List.mem_cons_of_mem _ hpart)
      rw [hmore, sepBy, hone]
      rw [List.map_cons, List.map_cons] at hothers
      simp [hothers]

theorem sepBy_operands {item : Parser Expr} {t : Token} {operands : List Expr} (hne : operands ≠ []) {count : Nat}
    (hcount : operands.length ≤ count) {rest : List Token} (hrest : ∀ u ∈ rest.head?, u ≠ t)
    (hitem : ∀ e ∈ operands, ∀ tail, tail.head? = some t ∨ tail = rest →
      item (wrap e.isCompound e.tokens ++ tail) = some (e.reread.misread, tail)) :
    sepBy t item count (joinTokens t (Expr.operandTokens operands) ++ rest) =
      some (Expr.rereadAll operands, rest) := by
  let parts := operands.map fun e => (wrap e.isCompound e.tokens, e.reread.misread)
  have hread : sepBy t item count (joinTokens t (parts.map Prod.fst) ++ rest) = some (parts.map Prod.snd, rest) := by
    refine sepBy_join (by simpa [parts] using hne) (by simpa [parts] using hcount) hrest fun part hpart => ?_
    obtain ⟨e, he, rfl⟩ := List.mem_map.mp hpart
    exact hitem e he
  simpa [parts, Function.comp_def, Expr.operandTokens_eq_map, Expr.rereadAll_eq_map] using hread

/-! ## Expressions -/

/-- What may come after an operand of an operator. -/
def Follows (rest : List Token) : Prop :=
  ∀ t ∈ rest.head?, t = .rightParen ∨ t = .comma ∨ t = .and ∨ t = .or

/-- What may come after a whole expression. -/
def Closes (rest : List Token) : Prop :=
  ∀ t ∈ rest.head?, t = .rightParen ∨ t = .comma

theorem Closes.follows {rest : List Token} (h : Closes rest) : Follows rest :=
  fun t ht => (h t ht).imp_right .inl

theorem closes_rightParen (rest : List Token) : Closes (.rightParen :: rest) := by
  intro t ht
  exact .inl (by simpa [eq_comm] using ht)

theorem follows_of_head? {t : Token} (ht : t = .rightParen ∨ t = .comma ∨ t = .and ∨ t = .or) {tail : List Token}
    (h : tail.head? = some t) : Follows tail := by
  intro u hu
  obtain rfl := Option.some.inj (h.symm.trans hu)
  exact ht

theorem closes_of_head? {tail : List Token} (h : tail.head? = some .comma) : Closes tail := by
  intro t ht
  exact .inr (Option.some.inj (ht.symm.trans h))

/-- What is read back of an expression is read off the front of its tokens, wherever it may stand. -/
structure Parses (e : Expr) : Prop where
  expr : ∀ depth rest, e.tokens.length < depth → Closes rest →
    Parser.expr depth (e.tokens ++ rest) = some (e.reread, rest)
  unary : ∀ depth rest, (wrap e.isCompound e.tokens).length ≤ depth → Follows rest →
    Parser.unary (Parser.expr depth) depth (wrap e.isCompound e.tokens ++ rest) = some (e.reread.misread, rest)
  operand : e.isComparable = true → ∀ depth rest, e.tokens.length ≤ depth → (∀ t ∈ rest.head?, t ≠ .colon) →
    Parser.operand (Parser.expr depth) depth (e.tokens ++ rest) = some (e.reread, rest)

theorem Follows.ne_colon {rest : List Token} (h : Follows rest) : ∀ t ∈ rest.head?, t ≠ .colon := by
  intro t ht
  rcases h t ht with rfl | rfl | rfl | rfl <;> simp

theorem conjunction_of_unary {depth count : Nat} (hcount : 0 < count) {tokens rest : List Token} {e : Expr}
    (hrest : ∀ t ∈ rest.head?, t ≠ .and) (h : unary (expr depth) count tokens = some (e, rest)) :
    conjunction (expr depth) count tokens = some (e, rest) := by
  obtain ⟨count, rfl⟩ := Nat.exists_eq_add_one.mpr hcount
  rw [conjunction, sepBy, h]
  cases rest with
  | nil => rfl
  | cons t rest => simp [hrest t rfl, Expr.conjunction]

theorem expr_of_conjunction {depth : Nat} (hdepth : 0 < depth) {tokens rest : List Token} {e : Expr}
    (hrest : ∀ t ∈ rest.head?, t ≠ .or) (h : conjunction (expr depth) depth tokens = some (e, rest)) :
    expr (depth + 1) tokens = some (e, rest) := by
  obtain ⟨depth, rfl⟩ := Nat.exists_eq_add_one.mpr hdepth
  rw [expr, disjunction, sepBy, h]
  cases rest with
  | nil => rfl
  | cons t rest => simp [hrest t rfl, Expr.disjunction]

theorem Closes.ne_and {rest : List Token} (h : Closes rest) : ∀ t ∈ rest.head?, t ≠ .and := by
  intro t ht
  rcases h t ht with rfl | rfl <;> simp

theorem Closes.ne_or {rest : List Token} (h : Closes rest) : ∀ t ∈ rest.head?, t ≠ .or := by
  intro t ht
  rcases h t ht with rfl | rfl <;> simp

theorem expr_of_unary {depth : Nat} (hdepth : 0 < depth) {tokens rest : List Token} {e : Expr} (hrest : Closes rest)
    (h : unary (expr depth) depth tokens = some (e, rest)) : expr (depth + 1) tokens = some (e, rest) :=
  expr_of_conjunction hdepth hrest.ne_or (conjunction_of_unary hdepth hrest.ne_and h)

theorem unary_group {e : Expr} {depth : Nat} {tokens rest : List Token}
    (hmarker : afterMarker? (.leftParen :: (tokens ++ .rightParen :: rest)) = none)
    (hexpr : expr depth (tokens ++ .rightParen :: rest) = some (e, .rightParen :: rest)) :
    unary (expr depth) depth (.leftParen :: (tokens ++ .rightParen :: rest)) = some (e, rest) := by
  rw [unary, primary, hmarker]
  · simp [hexpr, expect]
  · simp

theorem unary_of_ne {depth : Nat} {t : Token} {tokens : List Token} (hparen : t ≠ .leftParen) (hnot : t ≠ .not) :
    unary (expr depth) depth (t :: tokens) = comparison (expr depth) depth (t :: tokens) := by
  have hmarker : afterMarker? (t :: tokens) = none := by
    unfold afterMarker?
    split
    · next heq => simp_all
    · next heq => simp_all
    · next heq => simp_all
    · rfl
  rw [unary, primary, hmarker]
  · simp [hparen]
  · simp [hnot]

theorem operand_word {read : Parser Expr} {count : Nat} {name : String} {rest : List Token}
    (hrest : ∀ t ∈ rest.head?, t ≠ .colon) :
    operand read count (.identifier name :: rest) = some (.ofWord name, rest) := by
  unfold operand
  split
  · next heq => simp_all
  · next heq => simp_all
  · next heq => simp_all
  · next heq => simp_all
  · next heq => simp_all
  · next h => simp_all

theorem ofWord_of_not_mem {name : String} (h : name ∉ literalWords) : Expr.ofWord name = .identifier name := by
  unfold Expr.ofWord
  split
  · exact absurd (by decide) h
  · exact absurd (by decide) h
  · exact absurd (by decide) h
  · rfl

theorem operand_literal {read : Parser Expr} {count : Nat} {value : Literal} {rest : List Token}
    (hrest : ∀ t ∈ rest.head?, t ≠ .colon) :
    operand read count (value.token :: rest) = some (.literal value, rest) := by
  cases value with
  | string s => rfl
  | number x => rfl
  | boolean b =>
    rw [Literal.token, operand_word hrest]
    cases b <;> rfl
  | null => exact operand_word hrest

theorem unary_of_operand {e : Expr} {depth : Nat} {tokens rest : List Token}
    (hstart : ∃ t tail, tokens = t :: tail ∧ t ≠ .leftParen ∧ t ≠ .not) (hrest : Follows rest)
    (h : operand (expr depth) depth (tokens ++ rest) = some (e, rest)) :
    unary (expr depth) depth (tokens ++ rest) = some (e, rest) := by
  obtain ⟨t, tail, rfl, hparen, hnot⟩ := hstart
  rw [List.cons_append] at h ⊢
  rw [unary_of_ne hparen hnot, comparison, h]
  cases rest with
  | nil => rfl
  | cons u rest => rcases hrest u rfl with rfl | rfl | rfl | rfl <;> rfl

theorem unary_comparison {op : CompareOp} {left right : Expr} {depth : Nat} {tokens after rest : List Token}
    (hstart : ∃ t tail, tokens = t :: tail ∧ t ≠ .leftParen ∧ t ≠ .not)
    (hleft : operand (expr depth) depth (tokens ++ .compare op :: after) = some (left, .compare op :: after))
    (hright : operand (expr depth) depth after = some (right, rest)) :
    unary (expr depth) depth (tokens ++ .compare op :: after) = some (.comparison op left right, rest) := by
  obtain ⟨t, tail, rfl, hparen, hnot⟩ := hstart
  rw [List.cons_append] at hleft ⊢
  rw [unary_of_ne hparen hnot, comparison, hleft]
  simp [hright]

/-! ## Each kind of expression -/

theorem tokens_ne_nil {e : Expr} {reserved : List String} (h : e.IsNormal reserved) : e.tokens ≠ [] := by
  obtain ⟨t, rest, htokens, -⟩ := h.runs.starts
  simp [htokens]

theorem wrap_ne_nil {tokens : List Token} (h : tokens ≠ []) (isCompound : Bool) : wrap isCompound tokens ≠ [] := by
  cases isCompound with
  | false => exact h
  | true => simp [wrap]

/-- What is read as a whole and is printed in parentheses as an operand, which it may be disguised by. -/
theorem parses_compound {e : Expr} (h : e.IsNormal literalWords) (hcompound : e.isCompound = true)
    (hexpr : ∀ depth rest, e.tokens.length < depth → Closes rest →
      expr depth (e.tokens ++ rest) = some (e.reread, rest))
    (hdisguised : e.isDisguised = true → ∀ depth rest, e.tokens.length < depth →
      unary (expr depth) depth (.leftParen :: (e.tokens ++ .rightParen :: rest)) = some (e.reread.misread, rest)) :
    Parses e where
  expr := hexpr
  unary depth rest hdepth hrest := by
    rw [hcompound] at hdepth ⊢
    change unary (Parser.expr depth) depth (.leftParen :: ((e.tokens ++ [.rightParen]) ++ rest)) = _
    rw [List.append_assoc]
    have hlength : e.tokens.length < depth := by
      simp only [wrap, if_true, List.length_cons, List.length_append, List.length_nil] at hdepth
      omega
    cases hplain : e.isDisguised with
    | false =>
      rw [Expr.misread_of_not_isDisguised ((Expr.isDisguised_reread e).trans hplain)]
      exact unary_group (afterMarker?_group h hplain _) (hexpr depth _ hlength (closes_rightParen _))
    | true => exact hdisguised hplain depth rest hlength
  operand hcomparable := by
    cases e with
    | and operands => simp [Expr.isComparable] at hcomparable
    | or operands => simp [Expr.isComparable] at hcomparable
    | comparison op left right => simp [Expr.isComparable] at hcomparable
    | _ => simp [Expr.isCompound] at hcompound

theorem parses_simple {e : Expr} {reserved : List String} (h : e.IsNormal reserved) (hcompound : e.isCompound = false)
    (hunary : ∀ depth rest, e.tokens.length ≤ depth → Follows rest →
      unary (expr depth) depth (e.tokens ++ rest) = some (e.reread, rest))
    (hoperand : e.isComparable = true → ∀ depth rest, e.tokens.length ≤ depth → (∀ t ∈ rest.head?, t ≠ .colon) →
      operand (expr depth) depth (e.tokens ++ rest) = some (e.reread, rest)) : Parses e where
  expr depth rest hdepth hrest := by
    obtain ⟨depth, rfl⟩ := Nat.exists_eq_add_one.mpr (Nat.zero_lt_of_lt hdepth)
    have hpos := List.length_pos_iff.mpr (tokens_ne_nil h)
    have hle : e.tokens.length ≤ depth := Nat.le_of_lt_succ hdepth
    exact expr_of_unary (Nat.lt_of_lt_of_le hpos hle) hrest (hunary depth rest hle hrest.follows)
  unary depth rest hdepth hrest := by
    rw [hcompound] at hdepth ⊢
    rw [Expr.misread_reread_of_not_isCompound hcompound]
    exact hunary depth rest hdepth hrest
  operand := hoperand

theorem Parses.group {e : Expr} (h : Parses e) {depth : Nat} {rest : List Token}
    (hdepth : e.tokens.length + 2 ≤ depth) (hrest : Follows rest) :
    Parser.unary (Parser.expr depth) depth (.leftParen :: (e.tokens ++ .rightParen :: rest)) =
      some (e.reread.misread, rest) := by
  cases hcompound : e.isCompound with
  | false =>
    rw [Expr.misread_reread_of_not_isCompound hcompound]
    exact unary_group (afterMarker?_simple hcompound _) (h.expr depth _ (by omega) (closes_rightParen _))
  | true =>
    have hread := h.unary depth rest
    rw [hcompound] at hread
    simp only [wrap, if_true, List.cons_append, List.append_assoc, List.nil_append, List.length_cons,
      List.length_append, List.length_nil] at hread
    exact hread (by omega) hrest

theorem joinTokens_bounds {lists : List (List Token)} (hne : ∀ l ∈ lists, l ≠ []) {t : Token} {depth : Nat}
    (hdepth : (joinTokens t lists).length ≤ depth) : lists.length ≤ depth ∧ ∀ l ∈ lists, l.length ≤ depth :=
  ⟨Nat.le_trans (length_le_joinTokens hne) hdepth, fun _ hl => Nat.le_trans (le_length_joinTokens hl) hdepth⟩

theorem operand_bounds {operands : List Expr} (h : ∀ e ∈ operands, e.IsNormal literalWords) {t : Token} {depth : Nat}
    (hdepth : (joinTokens t (Expr.operandTokens operands)).length ≤ depth) :
    operands.length ≤ depth ∧ ∀ e ∈ operands, (wrap e.isCompound e.tokens).length ≤ depth := by
  rw [Expr.operandTokens_eq_map] at hdepth
  have hne : ∀ l ∈ operands.map fun e => wrap e.isCompound e.tokens, l ≠ [] :=
    List.forall_mem_map.mpr fun e he => wrap_ne_nil (tokens_ne_nil (h e he)) _
  obtain ⟨hcount, hlengths⟩ := joinTokens_bounds hne hdepth
  exact ⟨by simpa using hcount, List.forall_mem_map.mp hlengths⟩

theorem flatMap_eq_self {f : Expr → List Expr} {operands : List Expr} (h : ∀ e ∈ operands, f e = [e]) :
    operands.flatMap f = operands := by
  induction operands with
  | nil => rfl
  | cons e others ih =>
    obtain ⟨he, hothers⟩ := List.forall_mem_cons.mp h
    rw [List.flatMap_cons, he, ih hothers, List.singleton_append]

theorem conjunction_eq_and {operands : List Expr} (hlen : 2 ≤ operands.length)
    (hflat : ∀ e ∈ operands, e.isAnd = false) : Expr.conjunction operands = .and operands := by
  unfold Expr.conjunction
  split
  · simp at hlen
  · refine congrArg Expr.and (flatMap_eq_self fun e he => ?_)
    cases e with
    | and inner => exact absurd (hflat _ he) (by simp [Expr.isAnd])
    | _ => rfl

theorem disjunction_eq_or {operands : List Expr} (hlen : 2 ≤ operands.length)
    (hflat : ∀ e ∈ operands, e.isOr = false) : Expr.disjunction operands = .or operands := by
  unfold Expr.disjunction
  split
  · simp at hlen
  · refine congrArg Expr.or (flatMap_eq_self fun e he => ?_)
    cases e with
    | or inner => exact absurd (hflat _ he) (by simp [Expr.isOr])
    | _ => rfl

theorem expr_operands {operands : List Expr} (hne : operands ≠ []) (hnormal : ∀ e ∈ operands, e.IsNormal literalWords)
    (ih : ∀ e ∈ operands, Parses e) {depth : Nat} {rest : List Token}
    (hdepth : (joinTokens .and (Expr.operandTokens operands)).length < depth) (hrest : Closes rest) :
    expr depth (joinTokens .and (Expr.operandTokens operands) ++ rest) =
      some (Expr.conjunction (Expr.rereadAll operands), rest) := by
  obtain ⟨depth, rfl⟩ := Nat.exists_eq_add_one.mpr (Nat.zero_lt_of_lt hdepth)
  obtain ⟨hcount, hlengths⟩ := operand_bounds hnormal (Nat.le_of_lt_succ hdepth)
  have hread : sepBy .and (unary (expr depth) depth) depth (joinTokens .and (Expr.operandTokens operands) ++ rest) =
      some (Expr.rereadAll operands, rest) := by
    refine sepBy_operands hne hcount hrest.ne_and fun e he tail htail => ?_
    refine (ih e he).unary depth tail (hlengths e he) ?_
    rcases htail with htail | rfl
    · exact follows_of_head? (by simp) htail
    · exact hrest.follows
  have hpos := List.length_pos_iff.mpr hne
  refine expr_of_conjunction (by omega) hrest.ne_or ?_
  rw [conjunction, hread]
  rfl

theorem expr_and {operands : List Expr} (hlen : 2 ≤ operands.length) (hflat : ∀ e ∈ operands, e.isAnd = false)
    (hnormal : ∀ e ∈ operands, e.IsNormal literalWords) (ih : ∀ e ∈ operands, Parses e) {depth : Nat}
    {rest : List Token} (hdepth : (Expr.and operands).tokens.length < depth) (hrest : Closes rest) :
    expr depth ((Expr.and operands).tokens ++ rest) = some ((Expr.and operands).reread, rest) := by
  rw [Expr.tokens] at hdepth ⊢
  have hne : operands ≠ [] := by
    rintro rfl
    simp at hlen
  rw [expr_operands hne hnormal ih hdepth hrest, Expr.reread, Expr.rereadAll_eq_map]
  rw [conjunction_eq_and (by simpa using hlen)]
  intro e he
  obtain ⟨d, hd, rfl⟩ := List.mem_map.mp he
  exact Expr.isAnd_misread_reread (hflat d hd)

theorem unary_disguised {operands : List Expr} (hlen : 2 ≤ operands.length)
    (hnormal : ∀ e ∈ operands, e.IsNormal literalWords) (ih : ∀ e ∈ operands, Parses e)
    (hdisguised : (Expr.and operands).isDisguised = true) {depth : Nat} (rest : List Token)
    (hdepth : (Expr.and operands).tokens.length < depth) :
    unary (expr depth) depth (.leftParen :: ((Expr.and operands).tokens ++ .rightParen :: rest)) =
      some ((Expr.and operands).reread.misread, rest) := by
  match operands, hlen with
  | first :: second :: others, _ =>
    have hmarker : first.isMarkerComparison = true := hdisguised
    have hlength : (joinTokens .and (Expr.operandTokens (second :: others))).length < depth := by
      rw [Expr.tokens, joinTokens_operands, Expr.operandTokens] at hdepth
      rw [Expr.operandTokens, joinTokens]
      simp only [List.flatMap_cons, List.length_append, List.length_cons] at hdepth ⊢
      omega
    have hbody := expr_operands (List.cons_ne_nil second others) (List.forall_mem_cons.mp hnormal).2
      (List.forall_mem_cons.mp ih).2 hlength (closes_rightParen rest)
    have hmisread : (Expr.and (first :: second :: others)).reread.misread =
        .delayed (Expr.conjunction (Expr.rereadAll (second :: others))) := by
      rw [Expr.reread, Expr.rereadAll, Expr.misread, if_pos]
      rw [Expr.isMarkerComparison_misread, Expr.isMarkerComparison_reread, hmarker]
    rw [hmisread, unary, primary, afterMarker?_disguised hmarker (List.cons_ne_nil second others)]
    · simp [hbody, expect]
    · simp

theorem expr_or {operands : List Expr} (hlen : 2 ≤ operands.length) (hflat : ∀ e ∈ operands, e.isOr = false)
    (hnormal : ∀ e ∈ operands, e.IsNormal literalWords) (ih : ∀ e ∈ operands, Parses e) {depth : Nat}
    {rest : List Token} (hdepth : (Expr.or operands).tokens.length < depth) (hrest : Closes rest) :
    expr depth ((Expr.or operands).tokens ++ rest) = some ((Expr.or operands).reread, rest) := by
  rw [Expr.tokens] at hdepth ⊢
  obtain ⟨depth, rfl⟩ := Nat.exists_eq_add_one.mpr (Nat.zero_lt_of_lt hdepth)
  obtain ⟨hcount, hlengths⟩ := operand_bounds hnormal (Nat.le_of_lt_succ hdepth)
  have hne : operands ≠ [] := by
    rintro rfl
    simp at hlen
  have hread : sepBy .or (conjunction (expr depth) depth) depth
      (joinTokens .or (Expr.operandTokens operands) ++ rest) = some (Expr.rereadAll operands, rest) := by
    refine sepBy_operands hne hcount hrest.ne_or fun e he tail htail => ?_
    have hfollows : Follows tail ∧ ∀ t ∈ tail.head?, t ≠ .and := by
      rcases htail with htail | rfl
      · exact ⟨follows_of_head? (by simp) htail, by simp [htail]⟩
      · exact ⟨hrest.follows, hrest.ne_and⟩
    exact conjunction_of_unary (by omega) hfollows.2 ((ih e he).unary depth tail (hlengths e he) hfollows.1)
  have hor : Expr.disjunction (Expr.rereadAll operands) = .or (Expr.rereadAll operands) := by
    rw [Expr.rereadAll_eq_map, disjunction_eq_or (by simpa using hlen)]
    intro e he
    obtain ⟨d, hd, rfl⟩ := List.mem_map.mp he
    exact Expr.isOr_misread_reread (hflat d hd)
  rw [expr, disjunction, hread, Expr.reread, ← hor]
  rfl

theorem parses_not {e : Expr} (he : e.IsNormal literalWords) (ih : Parses e) : Parses (.not e) := by
  refine parses_simple (.not he) rfl (fun depth rest hdepth hrest => ?_) (by simp [Expr.isComparable])
  rw [Expr.tokens] at hdepth ⊢
  rw [List.cons_append, unary, ih.unary depth rest (Nat.le_of_succ_le hdepth) hrest, Expr.reread]
  rfl

theorem parses_delayed {e : Expr} (he : e.IsNormal literalWords) (ih : Parses e) : Parses (.delayed e) := by
  refine parses_simple (.delayed he) rfl (fun depth rest hdepth hrest => ?_) (by simp [Expr.isComparable])
  have htokens : (Expr.delayed e).tokens ++ rest =
      .leftParen :: (markerTokens.tail ++ (e.tokens ++ .rightParen :: .rightParen :: rest)) := by
    rw [Expr.tokens, List.append_assoc, List.append_assoc]
    rfl
  have hmarker :
      afterMarker? (.leftParen :: (markerTokens.tail ++ (e.tokens ++ .rightParen :: .rightParen :: rest))) =
        some (.leftParen :: (e.tokens ++ .rightParen :: .rightParen :: rest)) := rfl
  have hlength : e.tokens.length + 10 ≤ depth := by
    simp only [Expr.tokens, markerTokens, List.length_append, List.length_cons, List.length_nil] at hdepth
    omega
  obtain ⟨depth, rfl⟩ : ∃ d, depth = d + 1 := ⟨depth - 1, by omega⟩
  have hcloses := closes_rightParen rest
  have hbody := ih.group (Nat.le_of_succ_le_succ (m := depth) (by omega)) hcloses.follows
  have hread := expr_of_unary (by omega) hcloses hbody
  rw [htokens, unary, primary, hmarker]
  · simp [hread, expect, Expr.reread]
  · simp

theorem operand_call {read : Parser Expr} {count : Nat} {space name : String} {tokens rest : List Token}
    {arguments : List Expr} (hopen : ∀ t ∈ tokens.head?, t ≠ .rightParen)
    (hread : sepBy .comma read count tokens = some (arguments, .rightParen :: rest)) :
    operand read count (.identifier space :: .colon :: .identifier name :: .leftParen :: tokens) =
      some (.function space name arguments, rest) := by
  rw [operand]
  · simp [hread, expect]
  · rintro rest rfl
    exact hopen .rightParen rfl rfl

theorem parses_function {space name : String} {arguments : List Expr} (hspace : IsName space) (hname : IsName name)
    (hnormal : ∀ e ∈ arguments, e.IsNormal literalWords) (ih : ∀ e ∈ arguments, Parses e) :
    Parses (.function space name arguments) := by
  have hoperand (depth : Nat) (rest : List Token)
      (hdepth : (Expr.function space name arguments).tokens.length ≤ depth) :
      operand (expr depth) depth ((Expr.function space name arguments).tokens ++ rest) =
        some ((Expr.function space name arguments).reread, rest) := by
    rw [Expr.reread]
    rw [Expr.tokens] at hdepth ⊢
    simp only [List.cons_append, List.append_assoc, List.nil_append]
    by_cases hne : arguments = []
    · -- a call without arguments is a case of its own in the parser
      subst hne
      rfl
    · simp only [List.length_cons, List.length_append, List.length_nil] at hdepth
      obtain ⟨depth, rfl⟩ : ∃ d, depth = d + 1 := ⟨depth - 1, by omega⟩
      obtain ⟨hcount, hlengths⟩ := operand_bounds hnormal (t := .comma) (Nat.le_of_succ_le (m := depth) (by omega))
      refine operand_call ?_ (sepBy_operands hne (by omega) (by simp) fun e he tail htail => ?_)
      · obtain ⟨e, others, rfl⟩ := List.exists_cons_of_ne_nil hne
        obtain ⟨u, more, hstart, hopens⟩ := ((hnormal e (by simp)).runs.wrap e.isCompound).starts
        rw [joinTokens_operands, hstart]
        rintro t ht rfl
        obtain rfl : u = .rightParen := by simpa using ht
        simp [Token.opens] at hopens
      · have hcloses : Closes tail := by
          rcases htail with htail | rfl
          · exact closes_of_head? htail
          · exact closes_rightParen rest
        exact expr_of_unary (by omega) hcloses
          ((ih e he).unary depth tail (hlengths e he) hcloses.follows)
  refine parses_simple (.function hspace hname hnormal) rfl (fun depth rest hdepth hrest => ?_)
    fun _ depth rest hdepth _ => hoperand depth rest hdepth
  exact unary_of_operand (tokens_of_isComparable rfl) hrest (hoperand depth rest hdepth)

theorem parses_comparison {op : CompareOp} {left right : Expr} (hleft : left.isComparable = true)
    (hright : right.isComparable = true) (hleftNormal : left.IsNormal literalWords)
    (hrightNormal : right.IsNormal literalWords) (ihleft : Parses left) (ihright : Parses right) :
    Parses (.comparison op left right) := by
  refine parses_compound (.comparison hleft hright hleftNormal hrightNormal) rfl (fun depth rest hdepth hrest => ?_)
    (by simp [Expr.isDisguised])
  have hlength : left.tokens.length + right.tokens.length + 1 < depth := by
    simp only [Expr.tokens, List.length_append, List.length_cons] at hdepth
    omega
  obtain ⟨depth, rfl⟩ : ∃ d, depth = d + 1 := ⟨depth - 1, by omega⟩
  have hleftRead := ihleft.operand hleft depth (.compare op :: (right.tokens ++ rest)) (by omega) (by simp)
  have hrightRead := ihright.operand hright depth rest (by omega) hrest.follows.ne_colon
  rw [Expr.reread, Expr.misread_reread_of_not_isCompound (Expr.not_isCompound_of_isComparable hleft),
    Expr.misread_reread_of_not_isCompound (Expr.not_isCompound_of_isComparable hright)]
  rw [Expr.tokens, List.append_assoc, List.cons_append]
  exact expr_of_unary (by omega) hrest (unary_comparison (tokens_of_isComparable hleft) hleftRead hrightRead)

theorem parses_identifier {name : String} (hname : IsName name) (hfree : name ∉ literalWords) :
    Parses (.identifier name) := by
  have hoperand (depth : Nat) (rest : List Token) (hrest : ∀ t ∈ rest.head?, t ≠ .colon) :
      operand (expr depth) depth ((Expr.identifier name).tokens ++ rest) =
        some ((Expr.identifier name).reread, rest) := by
    rw [Expr.tokens, List.singleton_append, operand_word hrest, ofWord_of_not_mem hfree, Expr.reread]
  refine parses_simple (.identifier hname hfree) rfl (fun depth rest _ hrest => ?_)
    fun _ depth rest _ hrest => hoperand depth rest hrest
  exact unary_of_operand (tokens_of_isComparable rfl) hrest (hoperand depth rest hrest.ne_colon)

theorem parses_literal {value : Literal} (hvalue : value.IsWritable) : Parses (.literal value) := by
  have hoperand (depth : Nat) (rest : List Token) (hrest : ∀ t ∈ rest.head?, t ≠ .colon) :
      operand (expr depth) depth ((Expr.literal value).tokens ++ rest) = some ((Expr.literal value).reread, rest) := by
    rw [Expr.tokens, List.singleton_append, operand_literal hrest, Expr.reread]
  have hnormal : (Expr.literal value).IsNormal literalWords := .literal hvalue
  refine parses_simple hnormal rfl (fun depth rest _ hrest => ?_)
    fun _ depth rest _ hrest => hoperand depth rest hrest
  exact unary_of_operand (tokens_of_isComparable rfl) hrest (hoperand depth rest hrest.ne_colon)

theorem parses_of_isNormal {e : Expr} (h : e.IsNormal literalWords) : Parses e := by
  induction h with
  | and hlen hflat hoperands ih =>
    refine parses_compound (.and hlen hflat hoperands) rfl (fun depth rest => expr_and hlen hflat hoperands ih) ?_
    exact fun hdisguised depth rest => unary_disguised hlen hoperands ih hdisguised rest
  | or hlen hflat hoperands ih =>
    exact parses_compound (.or hlen hflat hoperands) rfl (fun depth rest => expr_or hlen hflat hoperands ih)
      (by simp [Expr.isDisguised])
  | not he ih => exact parses_not he ih
  | delayed he ih => exact parses_delayed he ih
  | function hspace hname harguments ih => exact parses_function hspace hname harguments ih
  | comparison hleft hright hleftNormal hrightNormal ihleft ihright =>
    exact parses_comparison hleft hright hleftNormal hrightNormal ihleft ihright
  | identifier hname hfree => exact parses_identifier hname hfree
  | literal hvalue => exact parses_literal hvalue

end Parser

/-- The text of a normal expression is read, with delayed expressions for what is disguised. -/
theorem Expr.parse?_text_eq_reread {e : Expr} (h : e.IsNormal literalWords) :
    Expr.parse? (String.ofList e.text) = some e.reread := by
  have hcloses : Parser.Closes [] := by simp [Parser.Closes]
  have hread := (Parser.parses_of_isNormal h).expr (e.tokens.length + 1) [] (Nat.lt_succ_self _) hcloses
  rw [List.append_nil] at hread
  rw [Expr.parse?, String.toList_ofList, tokenize_text h]
  simp [hread]

theorem Expr.parse?_text {e : Expr} (h : e.IsNormal reservedWords) : Expr.parse? (String.ofList e.text) = some e := by
  rw [parse?_text_eq_reread (h.mono fun _ => List.mem_cons_of_mem _), (reread_eq_self_iff e).mpr h.undisguised]

end ProximitySearch.Query
