import ProximitySearch.Proofs.RenderedQueries

/-!
# Texts with the fewest parentheses

A negation binds its operand tighter than `&&` does, and `&&` tighter than `||`. So parentheses are needed around a
disjunction in a conjunction and around either of them under a negation, and nowhere else (`Expr.bareTokens`). A
text that is spelled so, with blanks between its tokens or none, is read as the same expression
(`Expr.parse?_bare`), and as the same tree (`Tree.parse_bareText`).

The induction is on the expression and says which levels of the grammar read it without parentheses
(`Parser.Reads`): only the weakest one a disjunction, the ones down to `&&` a conjunction, and all of them what has
no operator of its own. Parentheses start no marker of a delayed expression here, since the word of the marker is no
identifier (`Parser.Unmarked`).
-/

namespace ProximitySearch.Query

/-! ## Spelling -/

mutual

/-- The tokens of an expression with the fewest parentheses. -/
def Expr.bareTokens : Expr → List Token
  | .and operands => joinTokens .and (Expr.bareOperands Expr.isOr operands)
  | .or operands => joinTokens .or (Expr.bareOperands (fun _ => false) operands)
  | .not e => .not :: wrap (e.isAnd || e.isOr) e.bareTokens
  | .delayed e =>
    .leftParen :: .leftParen :: .identifier "_Delayed_" :: .assign :: .identifier "true" :: .rightParen :: .and ::
      (e.bareTokens ++ [.rightParen])
  | .function space name arguments =>
    .identifier space :: .colon :: .identifier name :: .leftParen ::
      (joinTokens .comma (Expr.bareOperands (fun _ => false) arguments) ++ [.rightParen])
  | .comparison op left right => left.bareTokens ++ .compare op :: right.bareTokens
  | .identifier name => [.identifier name]
  | .literal value => [value.token]

/-- The tokens of operands, some of them in parentheses. -/
def Expr.bareOperands (inParens : Expr → Bool) : List Expr → List (List Token)
  | [] => []
  | e :: others => wrap (inParens e) e.bareTokens :: Expr.bareOperands inParens others

end

theorem Expr.bareOperands_eq_map (inParens : Expr → Bool) (operands : List Expr) :
    Expr.bareOperands inParens operands = operands.map fun e => wrap (inParens e) e.bareTokens := by
  induction operands with
  | nil => rw [Expr.bareOperands, List.map_nil]
  | cons e others ih => rw [Expr.bareOperands, ih, List.map_cons]

/-- A text of a tree with the fewest parentheses, and with any blanks between its tokens. -/
def Tree.IsBareText (t : Tree) (text : String) : Prop :=
  ∃ e, t = Tree.ofExpr e ∧ Spaced e.bareTokens text.toList

theorem runs_join_bare {operands : List Expr} (hne : operands ≠ []) (h : ∀ e ∈ operands, Runs e.bareTokens)
    (inParens : Expr → Bool) {t : Token} (hbreaks : t.breaks = true) (ht : t.ends = false) :
    Runs (joinTokens t (Expr.bareOperands inParens operands)) := by
  rw [Expr.bareOperands_eq_map]
  refine .join (by simpa using hne) (List.forall_mem_map.mpr fun e he => ?_) hbreaks ht
  exact (h e he).wrap _

theorem ne_nil_of_two_le {operands : List Expr} (h : 2 ≤ operands.length) : operands ≠ [] :=
  List.ne_nil_of_length_pos (Nat.lt_of_lt_of_le Nat.two_pos h)

theorem Expr.IsNormal.runs_bare {reserved : List String} {e : Expr} (h : e.IsNormal reserved) :
    Runs e.bareTokens := by
  induction h with
  | and hlen hflat hoperands ih =>
    rw [Expr.bareTokens]
    exact runs_join_bare (ne_nil_of_two_le hlen) ih _ rfl rfl
  | or hlen hflat hoperands ih =>
    rw [Expr.bareTokens]
    exact runs_join_bare (ne_nil_of_two_le hlen) ih _ rfl rfl
  | not he ih =>
    rw [Expr.bareTokens]
    exact (ih.wrap _).cons rfl rfl trivial
  | delayed he ih =>
    rw [Expr.bareTokens]
    exact ih.behindMarker
  | @function space name arguments hspace hname harguments ih =>
    rw [Expr.bareTokens]
    refine Runs.call hspace hname ?_
    by_cases hne : arguments = []
    · subst hne
      exact .inl rfl
    · exact .inr (runs_join_bare hne ih _ rfl rfl)
  | comparison hleft hright _ _ ihleft ihright =>
    rw [Expr.bareTokens]
    exact ihleft.append ihright rfl rfl
  | identifier hname hfree =>
    rw [Expr.bareTokens]
    exact .single rfl rfl hname
  | literal hvalue =>
    rw [Expr.bareTokens]
    exact .literal hvalue

theorem tokenize_bare {reserved : List String} {e : Expr} (h : e.IsNormal reserved) {text : List Char}
    (htext : Spaced e.bareTokens text) : tokenize text = some e.bareTokens := by
  have hchain := h.runs_bare.chain [] .nil (by simp)
  rw [List.append_nil] at hchain
  exact tokenize_spaced htext h.runs_bare.writable hchain

namespace Parser

/-! ## No markers -/

/-- Tokens that neither start like the inside of a marker nor, in parentheses, like the marker. -/
structure Unmarked (tokens : List Token) : Prop where
  inside : ∀ rest, isMarked (tokens ++ rest) = false
  group : ∀ rest, afterMarker? (.leftParen :: (tokens ++ rest)) = none

namespace Unmarked

variable {tokens : List Token}

theorem append (h : Unmarked tokens) (others : List Token) : Unmarked (tokens ++ others) where
  inside rest := by
    rw [List.append_assoc]
    exact h.inside _
  group rest := by
    rw [List.append_assoc]
    exact h.group _

theorem parens (h : ∀ rest, isMarked (tokens ++ rest) = false) : Unmarked (.leftParen :: tokens) where
  inside _ := rfl
  group rest := afterMarker?_parens (h rest)

theorem of_ne {t : Token} (ht : t ≠ .leftParen) (h : ∀ rest, isMarked (t :: (tokens ++ rest)) = false) :
    Unmarked (t :: tokens) where
  inside := h
  group _ := afterMarker?_of_ne ht

theorem wrap (h : Unmarked tokens) (inParens : Bool) : Unmarked (wrap inParens tokens) := by
  cases inParens with
  | false => exact h
  | true => exact .parens (h.append _).inside

theorem join {operands : List Expr} (hne : operands ≠ []) (h : ∀ e ∈ operands, Unmarked e.bareTokens)
    (inParens : Expr → Bool) (t : Token) : Unmarked (joinTokens t (Expr.bareOperands inParens operands)) := by
  obtain ⟨e, others, rfl⟩ := List.exists_cons_of_ne_nil hne
  rw [Expr.bareOperands, joinTokens]
  exact ((h e (by simp)).wrap _).append _

end Unmarked

theorem isMarked_of_ne {name : String} (h : name ≠ "_Delayed_") (rest : List Token) :
    isMarked (.identifier name :: rest) = false := by
  unfold isMarked
  split <;> simp_all

theorem unmarked_of_isNormal {e : Expr} (h : e.IsNormal reservedWords) : Unmarked e.bareTokens := by
  induction h with
  | and hlen hflat hoperands ih =>
    rw [Expr.bareTokens]
    exact .join (ne_nil_of_two_le hlen) ih _ _
  | or hlen hflat hoperands ih =>
    rw [Expr.bareTokens]
    exact .join (ne_nil_of_two_le hlen) ih _ _
  | not he ih =>
    rw [Expr.bareTokens]
    exact .of_ne (by simp) fun rest => rfl
  | delayed he ih =>
    rw [Expr.bareTokens]
    exact .parens fun rest => rfl
  | @function space name arguments hspace hname harguments ih =>
    rw [Expr.bareTokens]
    exact .of_ne (by simp) fun rest => by simp [isMarked]
  | comparison hleft hright _ _ ihleft ihright =>
    rw [Expr.bareTokens]
    exact ihleft.append _
  | @identifier name hname hfree =>
    rw [Expr.bareTokens]
    refine .of_ne (by simp) fun rest => isMarked_of_ne ?_ _
    rintro rfl
    exact hfree (by decide)
  | @literal value hvalue =>
    rw [Expr.bareTokens]
    exact .of_ne (by cases value <;> simp [Literal.token]) fun rest => isMarked_literal value _

/-! ## Levels of the grammar -/

/-- What each level of the grammar reads off the tokens of an expression. -/
structure Reads (e : Expr) : Prop where
  expr : ∀ depth rest, e.bareTokens.length < depth → Closes rest →
    Parser.expr depth (e.bareTokens ++ rest) = some (e, rest)
  conjunction : e.isOr = false → ∀ depth rest, e.bareTokens.length ≤ depth → Follows rest →
    (∀ t ∈ rest.head?, t ≠ .and) →
      Parser.conjunction (Parser.expr depth) depth (e.bareTokens ++ rest) = some (e, rest)
  unary : e.isOr = false → e.isAnd = false → ∀ depth rest, e.bareTokens.length ≤ depth → Follows rest →
    Parser.unary (Parser.expr depth) depth (e.bareTokens ++ rest) = some (e, rest)
  operand : e.isComparable = true → ∀ depth rest, e.bareTokens.length ≤ depth → (∀ t ∈ rest.head?, t ≠ .colon) →
    Parser.operand (Parser.expr depth) depth (e.bareTokens ++ rest) = some (e, rest)

theorem bareTokens_ne_nil {reserved : List String} {e : Expr} (h : e.IsNormal reserved) : e.bareTokens ≠ [] := by
  obtain ⟨t, rest, htokens, -⟩ := h.runs_bare.starts
  simp [htokens]

theorem bareTokens_of_isComparable {e : Expr} (h : e.isComparable = true) :
    ∃ t tail, e.bareTokens = t :: tail ∧ t ≠ .leftParen ∧ t ≠ .not := by
  cases e with
  | function space name arguments => exact ⟨_, _, by rw [Expr.bareTokens], by simp, by simp⟩
  | identifier name => exact ⟨_, _, by rw [Expr.bareTokens], by simp, by simp⟩
  | literal value => exact ⟨_, _, by rw [Expr.bareTokens], by cases value <;> simp [Literal.token],
      by cases value <;> simp [Literal.token]⟩
  | _ => simp [Expr.isComparable] at h

/-- What is read without an operator of its own is read at all levels. -/
theorem reads_of_unary {e : Expr} {reserved : List String} (h : e.IsNormal reserved)
    (hunary : ∀ depth rest, e.bareTokens.length ≤ depth → Follows rest →
      unary (expr depth) depth (e.bareTokens ++ rest) = some (e, rest))
    (hoperand : e.isComparable = true → ∀ depth rest, e.bareTokens.length ≤ depth → (∀ t ∈ rest.head?, t ≠ .colon) →
      operand (expr depth) depth (e.bareTokens ++ rest) = some (e, rest)) : Reads e := by
  have hpos := List.length_pos_iff.mpr (bareTokens_ne_nil h)
  refine ⟨fun depth rest hdepth hrest => ?_, fun _ depth rest hdepth hrest hand => ?_, fun _ _ => hunary, hoperand⟩
  · obtain ⟨depth, rfl⟩ := Nat.exists_eq_add_one.mpr (Nat.zero_lt_of_lt hdepth)
    exact expr_of_unary (by omega) hrest (hunary depth rest (Nat.le_of_lt_succ hdepth) hrest.follows)
  · exact conjunction_of_unary (Nat.lt_of_lt_of_le hpos hdepth) hand (hunary depth rest hdepth hrest)

/-- What stands in parentheses just where it needs them is read like what needs none. -/
theorem Reads.wrapped {e : Expr} (h : Reads e) (hmarker : Unmarked e.bareTokens) {inParens : Bool}
    (hneeds : inParens = false → e.isOr = false ∧ e.isAnd = false) {depth : Nat} {rest : List Token}
    (hdepth : (wrap inParens e.bareTokens).length ≤ depth) (hrest : Follows rest) :
    Parser.unary (Parser.expr depth) depth (wrap inParens e.bareTokens ++ rest) = some (e, rest) := by
  cases inParens with
  | false =>
    obtain ⟨hor, hand⟩ := hneeds rfl
    exact h.unary hor hand depth rest hdepth hrest
  | true =>
    change Parser.unary _ _ (.leftParen :: ((e.bareTokens ++ [.rightParen]) ++ rest)) = _
    rw [List.append_assoc]
    have hlength : e.bareTokens.length < depth := by
      simp only [wrap, if_true, List.length_cons, List.length_append, List.length_nil] at hdepth
      omega
    exact unary_group (hmarker.group _) (h.expr depth _ hlength (closes_rightParen rest))

theorem sepBy_bareOperands {item : Parser Expr} {t : Token} {inParens : Expr → Bool} {operands : List Expr}
    (hne : operands ≠ []) (hnormal : ∀ e ∈ operands, e.IsNormal reservedWords) {count : Nat}
    (hcount : (joinTokens t (Expr.bareOperands inParens operands)).length ≤ count) {rest : List Token}
    (hrest : ∀ u ∈ rest.head?, u ≠ t)
    (hitem : ∀ e ∈ operands, (wrap (inParens e) e.bareTokens).length ≤ count → ∀ tail,
      tail.head? = some t ∨ tail = rest → item (wrap (inParens e) e.bareTokens ++ tail) = some (e, tail)) :
    sepBy t item count (joinTokens t (Expr.bareOperands inParens operands) ++ rest) = some (operands, rest) := by
  rw [Expr.bareOperands_eq_map] at hcount ⊢
  have hlists : ∀ l ∈ operands.map fun e => wrap (inParens e) e.bareTokens, l ≠ [] :=
    List.forall_mem_map.mpr fun e he => wrap_ne_nil (bareTokens_ne_nil (hnormal e he)) _
  obtain ⟨hlength, hlengths⟩ := joinTokens_bounds hlists hcount
  let parts := operands.map fun e => (wrap (inParens e) e.bareTokens, e)
  have hread : sepBy t item count (joinTokens t (parts.map Prod.fst) ++ rest) = some (parts.map Prod.snd, rest) := by
    refine sepBy_join (by simpa [parts] using hne) (by simpa [parts] using hlength) hrest fun part hpart => ?_
    obtain ⟨e, he, rfl⟩ := List.mem_map.mp hpart
    exact hitem e he (List.forall_mem_map.mp hlengths e he)
  simpa [parts, Function.comp_def] using hread

/-! ## Each kind of expression -/

theorem reads_and {operands : List Expr} (hlen : 2 ≤ operands.length) (hflat : ∀ e ∈ operands, e.isAnd = false)
    (hnormal : ∀ e ∈ operands, e.IsNormal reservedWords) (ih : ∀ e ∈ operands, Reads e) : Reads (.and operands) := by
  have hconjunction (depth : Nat) (rest : List Token) (hdepth : (Expr.and operands).bareTokens.length ≤ depth)
      (hrest : Follows rest) (hand : ∀ t ∈ rest.head?, t ≠ .and) :
      conjunction (expr depth) depth ((Expr.and operands).bareTokens ++ rest) = some (.and operands, rest) := by
    rw [Expr.bareTokens] at hdepth ⊢
    rw [conjunction, sepBy_bareOperands (ne_nil_of_two_le hlen) hnormal hdepth hand fun e he hlength tail htail => ?_]
    · exact congrArg (fun e => some (e, rest)) (conjunction_eq_and hlen hflat)
    · refine (ih e he).wrapped (unmarked_of_isNormal (hnormal e he)) (fun hor => ⟨hor, hflat e he⟩) hlength ?_
      rcases htail with htail | rfl
      · exact follows_of_head? (by simp) htail
      · exact hrest
  have hpos := List.length_pos_iff.mpr (bareTokens_ne_nil (.and hlen hflat hnormal))
  refine ⟨fun depth rest hdepth hrest => ?_, fun _ => hconjunction, by simp [Expr.isAnd], by simp [Expr.isComparable]⟩
  obtain ⟨depth, rfl⟩ := Nat.exists_eq_add_one.mpr (Nat.zero_lt_of_lt hdepth)
  exact expr_of_conjunction (by omega) hrest.ne_or
    (hconjunction depth rest (Nat.le_of_lt_succ hdepth) hrest.follows hrest.ne_and)

theorem reads_or {operands : List Expr} (hlen : 2 ≤ operands.length) (hflat : ∀ e ∈ operands, e.isOr = false)
    (hnormal : ∀ e ∈ operands, e.IsNormal reservedWords) (ih : ∀ e ∈ operands, Reads e) : Reads (.or operands) := by
  refine ⟨fun depth rest hdepth hrest => ?_, by simp [Expr.isOr], by simp [Expr.isOr], by simp [Expr.isComparable]⟩
  obtain ⟨depth, rfl⟩ := Nat.exists_eq_add_one.mpr (Nat.zero_lt_of_lt hdepth)
  rw [Expr.bareTokens] at hdepth ⊢
  have hlist := Nat.le_of_lt_succ hdepth
  rw [expr, disjunction,
    sepBy_bareOperands (ne_nil_of_two_le hlen) hnormal hlist hrest.ne_or fun e he hlength tail htail => ?_]
  · exact congrArg (fun e => some (e, rest)) (disjunction_eq_or hlen hflat)
  · refine (ih e he).conjunction (hflat e he) depth tail hlength ?_ ?_
    · rcases htail with htail | rfl
      · exact follows_of_head? (by simp) htail
      · exact hrest.follows
    · rcases htail with htail | rfl
      · simp [htail]
      · exact hrest.ne_and

theorem reads_not {e : Expr} (he : e.IsNormal reservedWords) (ih : Reads e) : Reads (.not e) := by
  refine reads_of_unary (.not he) (fun depth rest hdepth hrest => ?_) (by simp [Expr.isComparable])
  rw [Expr.bareTokens] at hdepth ⊢
  have hneeds : (e.isAnd || e.isOr) = false → e.isOr = false ∧ e.isAnd = false :=
    fun hnone => (Bool.or_eq_false_iff.mp hnone).symm
  have hbody := ih.wrapped (unmarked_of_isNormal he) hneeds (Nat.le_of_succ_le hdepth) hrest
  rw [List.cons_append, unary, hbody]
  rfl

theorem reads_delayed {e : Expr} (he : e.IsNormal reservedWords) (ih : Reads e) : Reads (.delayed e) := by
  refine reads_of_unary (.delayed he) (fun depth rest hdepth hrest => ?_) (by simp [Expr.isComparable])
  rw [Expr.bareTokens] at hdepth ⊢
  simp only [List.length_cons, List.length_append, List.length_nil] at hdepth
  have hbody := ih.expr depth _ (by omega) (closes_rightParen rest)
  simp only [List.cons_append, List.append_assoc, List.nil_append]
  rw [unary, primary, afterMarker?]
  · simp [hbody, expect]
  · simp

theorem reads_function {space name : String} {arguments : List Expr} (hspace : IsName space) (hname : IsName name)
    (hnormal : ∀ e ∈ arguments, e.IsNormal reservedWords) (ih : ∀ e ∈ arguments, Reads e) :
    Reads (.function space name arguments) := by
  have hoperand (depth : Nat) (rest : List Token)
      (hdepth : (Expr.function space name arguments).bareTokens.length ≤ depth) :
      operand (expr depth) depth ((Expr.function space name arguments).bareTokens ++ rest) =
        some (.function space name arguments, rest) := by
    rw [Expr.bareTokens] at hdepth ⊢
    simp only [List.cons_append, List.append_assoc, List.nil_append]
    by_cases hne : arguments = []
    · -- a call without arguments is a case of its own in the parser
      subst hne
      rfl
    · simp only [List.length_cons, List.length_append, List.length_nil] at hdepth
      refine operand_call ?_
        (sepBy_bareOperands hne hnormal (by omega) (by simp) fun e he hlength tail htail => ?_)
      · obtain ⟨u, more, hstart, hopens⟩ :=
          (runs_join_bare hne (fun e he => (hnormal e he).runs_bare) (fun _ => false) (t := .comma) rfl rfl).starts
        rw [hstart]
        rintro t ht rfl
        obtain rfl : u = .rightParen := by simpa using ht
        simp [Token.opens] at hopens
      · have hcloses : Closes tail := by
          rcases htail with htail | rfl
          · exact closes_of_head? htail
          · exact closes_rightParen rest
        have hlt : e.bareTokens.length < depth := by
          have hmem : e.bareTokens ∈ Expr.bareOperands (fun _ => false) arguments := by
            rw [Expr.bareOperands_eq_map]
            exact List.mem_map.mpr ⟨e, he, rfl⟩
          have hle := le_length_joinTokens (t := .comma) hmem
          omega
        exact (ih e he).expr depth tail hlt hcloses
  refine reads_of_unary (.function hspace hname hnormal) (fun depth rest hdepth hrest => ?_)
    fun _ depth rest hdepth _ => hoperand depth rest hdepth
  exact unary_of_operand (bareTokens_of_isComparable rfl) hrest (hoperand depth rest hdepth)

theorem reads_comparison {op : CompareOp} {left right : Expr} (hleft : left.isComparable = true)
    (hright : right.isComparable = true) (hleftNormal : left.IsNormal reservedWords)
    (hrightNormal : right.IsNormal reservedWords) (ihleft : Reads left) (ihright : Reads right) :
    Reads (.comparison op left right) := by
  refine reads_of_unary (.comparison hleft hright hleftNormal hrightNormal) (fun depth rest hdepth hrest => ?_)
    (by simp [Expr.isComparable])
  rw [Expr.bareTokens] at hdepth ⊢
  simp only [List.length_append, List.length_cons] at hdepth
  have hleftRead := ihleft.operand hleft depth (.compare op :: (right.bareTokens ++ rest)) (by omega) (by simp)
  have hrightRead := ihright.operand hright depth rest (by omega) hrest.ne_colon
  rw [List.append_assoc, List.cons_append]
  exact unary_comparison (bareTokens_of_isComparable hleft) hleftRead hrightRead

theorem reads_identifier {name : String} (hname : IsName name) (hfree : name ∉ reservedWords) :
    Reads (.identifier name) := by
  have hword : Expr.ofWord name = .identifier name :=
    ofWord_of_not_mem fun hmem => hfree (List.mem_cons_of_mem _ hmem)
  have hoperand (depth : Nat) (rest : List Token) (hrest : ∀ t ∈ rest.head?, t ≠ .colon) :
      operand (expr depth) depth ((Expr.identifier name).bareTokens ++ rest) = some (.identifier name, rest) := by
    rw [Expr.bareTokens, List.singleton_append, operand_word hrest, hword]
  refine reads_of_unary (.identifier hname hfree) (fun depth rest _ hrest => ?_)
    fun _ depth rest _ hrest => hoperand depth rest hrest
  exact unary_of_operand (bareTokens_of_isComparable rfl) hrest (hoperand depth rest hrest.ne_colon)

theorem reads_literal {value : Literal} (hvalue : value.IsWritable) : Reads (.literal value) := by
  have hoperand (depth : Nat) (rest : List Token) (hrest : ∀ t ∈ rest.head?, t ≠ .colon) :
      operand (expr depth) depth ((Expr.literal value).bareTokens ++ rest) = some (.literal value, rest) := by
    rw [Expr.bareTokens, List.singleton_append, operand_literal hrest]
  have hnormal : (Expr.literal value).IsNormal reservedWords := .literal hvalue
  refine reads_of_unary hnormal (fun depth rest _ hrest => ?_) fun _ depth rest _ hrest => hoperand depth rest hrest
  exact unary_of_operand (bareTokens_of_isComparable rfl) hrest (hoperand depth rest hrest.ne_colon)

theorem reads_of_isNormal {e : Expr} (h : e.IsNormal reservedWords) : Reads e := by
  induction h with
  | and hlen hflat hoperands ih => exact reads_and hlen hflat hoperands ih
  | or hlen hflat hoperands ih => exact reads_or hlen hflat hoperands ih
  | not he ih => exact reads_not he ih
  | delayed he ih => exact reads_delayed he ih
  | function hspace hname harguments ih => exact reads_function hspace hname harguments ih
  | comparison hleft hright hleftNormal hrightNormal ihleft ihright =>
    exact reads_comparison hleft hright hleftNormal hrightNormal ihleft ihright
  | identifier hname hfree => exact reads_identifier hname hfree
  | literal hvalue => exact reads_literal hvalue

end Parser

/-- A text with the fewest parentheses is read as the expression it spells. -/
theorem Expr.parse?_bare {e : Expr} (h : e.IsNormal reservedWords) {text : String}
    (htext : Spaced e.bareTokens text.toList) : Expr.parse? text = some e := by
  have hread := (Parser.reads_of_isNormal h).expr (e.bareTokens.length + 1) [] (Nat.lt_succ_self _)
    (by simp [Parser.Closes])
  rw [List.append_nil] at hread
  rw [Expr.parse?, tokenize_bare h htext]
  simp [hread]

namespace Tree

variable {t : Tree}

/-- A well-formed tree of words that can be written has texts with the fewest parentheses, and any such text is parsed
to that tree, with the same ids. -/
theorem parse_bareText (hform : t.IsWellFormed) (hwritable : ∀ node ∈ t.nodes, node.kind.IsWritable)
    (hread : ∀ node ∈ t.nodes, ∀ x, node.kind = .literal (.number x) → Decimal.readFloat? (numberText x) = some x) :
    (∃ text, t.IsBareText text) ∧ ∀ text, t.IsBareText text → parse text = .ok t := by
  obtain ⟨e, he, hscript, hlayout⟩ := hform.exists_expr hwritable hread
  have htree : t = ofExpr e := eq_ofExpr hscript hlayout
  constructor
  · refine ⟨String.ofList (e.bareTokens.flatMap Token.printed), e, htree, ?_⟩
    rw [String.toList_ofList]
    exact spaced_printed e.bareTokens
  · rintro text ⟨e', htree', htext⟩
    obtain rfl := ofExpr_inj.mp (htree.symm.trans htree')
    rw [parse, Expr.parse?_bare he htext, htree]

/-- The tree of `!(A || B) && !C != 'd' || ((_Delayed_ = true) && content:within(TEXT, E < 3.5 && F))`. -/
def layeredQuery : Tree := ⟨[
  ⟨.script, none, [1]⟩,
  ⟨.or, some 0, [2, 11]⟩,
  ⟨.and, some 1, [3, 7]⟩,
  ⟨.not, some 2, [4]⟩,
  ⟨.or, some 3, [5, 6]⟩,
  ⟨.identifier "A", some 4, []⟩,
  ⟨.identifier "B", some 4, []⟩,
  ⟨.not, some 2, [8]⟩,
  ⟨.comparison .ne, some 7, [9, 10]⟩,
  ⟨.identifier "C", some 8, []⟩,
  ⟨.literal (.string "d"), some 8, []⟩,
  ⟨.delayed, some 1, [12]⟩,
  ⟨.function "content" "within", some 11, [13, 14]⟩,
  ⟨.identifier "TEXT", some 12, []⟩,
  ⟨.and, some 12, [15, 18]⟩,
  ⟨.comparison .lt, some 14, [16, 17]⟩,
  ⟨.identifier "E", some 15, []⟩,
  ⟨.literal (.number 3.5), some 15, []⟩,
  ⟨.identifier "F", some 14, []⟩]⟩

/-- The expression of that tree. -/
def layeredExpr : Expr :=
  .or [.and [.not (.or [.identifier "A", .identifier "B"]),
      .not (.comparison .ne (.identifier "C") (.literal (.string "d")))],
    .delayed (.function "content" "within" [.identifier "TEXT",
      .and [.comparison .lt (.identifier "E") (.literal (.number 3.5)), .identifier "F"]])]

/-- A text of it, with blanks here and there. -/
def layeredText : String := "!(A||B) &&\t!C!='d'||( (_Delayed_=true)&&content:within(TEXT, E<3.5\n&& F))\r"

theorem isBareText_layeredQuery : layeredQuery.IsBareText layeredText :=
  ⟨layeredExpr, by decide +kernel, spaced_of_spells (by decide +kernel)⟩

theorem isWellFormed_layeredQuery : layeredQuery.IsWellFormed where
  preorder := by repeat first | exact .nil | refine .cons rfl ?_
  linked := by decide
  script := ⟨1, rfl⟩
  admits := by decide

theorem parse_bareText_layeredQuery :
    layeredQuery.IsWellFormed ∧ (∀ node ∈ layeredQuery.nodes, node.kind.IsWritable) ∧
      (∀ node ∈ layeredQuery.nodes, ∀ x, node.kind = .literal (.number x) →
        Decimal.readFloat? (numberText x) = some x) ∧
      layeredQuery.IsBareText layeredText ∧ parse layeredText = .ok layeredQuery := by
  have hwritable : ∀ node ∈ layeredQuery.nodes, node.kind.IsWritable := by decide +kernel
  have hread : ∀ node ∈ layeredQuery.nodes, ∀ x, node.kind = .literal (.number x) →
      Decimal.readFloat? (numberText x) = some x := by
    have hnumber : Decimal.readFloat? (numberText 3.5) = some 3.5 := by decide +kernel
    simp [layeredQuery, hnumber]
  have hparse := (parse_bareText isWellFormed_layeredQuery hwritable hread).2 layeredText isBareText_layeredQuery
  exact ⟨isWellFormed_layeredQuery, hwritable, hread, isBareText_layeredQuery, hparse⟩

end Tree

end ProximitySearch.Query
