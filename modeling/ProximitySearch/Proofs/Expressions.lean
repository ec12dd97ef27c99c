import ProximitySearch.Proofs.Spelling
import ProximitySearch.Query.Expr

/-!
# Printed expressions

The tokens that an expression is printed as, and the text they make. Conjunctions, disjunctions and
comparisons stand in parentheses as operands, and a delayed expression has its marker in front of it.

An expression is normal if it is what a parser would build and all its names and numbers can be written
(`Expr.IsNormal`). The text of a normal expression has just its tokens (`tokenize_text`).
-/

namespace ProximitySearch.Query

/-! ## Normal expressions -/

def literalWords : List String := ["true", "false", "null"]

/-- Words that no identifier of a printed expression may be: literals, and the word of the delayed marker. -/
def reservedWords : List String := "_Delayed_" :: literalWords

def Literal.IsWritable : Literal → Prop
  | .number x => ReadsBack x
  | _ => True

namespace Expr

/-- Whether an expression is printed in parentheses as an operand. -/
def isCompound : Expr → Bool
  | .and _ | .or _ | .comparison .. => true
  | _ => false

def isComparable : Expr → Bool
  | .function .. | .identifier _ | .literal _ => true
  | _ => false

def isAnd : Expr → Bool
  | .and _ => true
  | _ => false

def isOr : Expr → Bool
  | .or _ => true
  | _ => false

/-- Lists of operands are flat and have two members at least, comparisons are between operands, names are
names, numbers read back, and no identifier is among the words reserved. -/
inductive IsNormal (reserved : List String) : Expr → Prop
  | and {operands : List Expr} (hlen : 2 ≤ operands.length) (hflat : ∀ e ∈ operands, e.isAnd = false)
      (hoperands : ∀ e ∈ operands, IsNormal reserved e) : IsNormal reserved (.and operands)
  | or {operands : List Expr} (hlen : 2 ≤ operands.length) (hflat : ∀ e ∈ operands, e.isOr = false)
      (hoperands : ∀ e ∈ operands, IsNormal reserved e) : IsNormal reserved (.or operands)
  | not {e : Expr} (he : IsNormal reserved e) : IsNormal reserved (.not e)
  | delayed {e : Expr} (he : IsNormal reserved e) : IsNormal reserved (.delayed e)
  | function {space name : String} {arguments : List Expr} (hspace : IsName space) (hname : IsName name)
      (harguments : ∀ e ∈ arguments, IsNormal reserved e) : IsNormal reserved (.function space name arguments)
  | comparison {op : CompareOp} {left right : Expr} (hleft : left.isComparable = true)
      (hright : right.isComparable = true) (hleftNormal : IsNormal reserved left)
      (hrightNormal : IsNormal reserved right) : IsNormal reserved (.comparison op left right)
  | identifier {name : String} (hname : IsName name) (hfree : name ∉ reserved) : IsNormal reserved (.identifier name)
  | literal {value : Literal} (hvalue : value.IsWritable) : IsNormal reserved (.literal value)

end Expr

/-! ## Tokens -/

/-- Tokens in parentheses, where they need them. -/
def wrap (isCompound : Bool) (tokens : List Token) : List Token :=
  if isCompound then .leftParen :: (tokens ++ [.rightParen]) else tokens

/-- Tokens of several operands, with a separator between each two. -/
def joinTokens (separator : Token) : List (List Token) → List Token
  | [] => []
  | first :: others => first ++ others.flatMap fun tokens => separator :: tokens

/-- The marker of a delayed expression, up to the parenthesis around what is delayed. -/
def markerTokens : List Token :=
  [.leftParen, .leftParen, .identifier "_Delayed_", .assign, .identifier "true", .rightParen, .and, .leftParen]

def Literal.token : Literal → Token
  | .string s => .string s
  | .number x => .number x
  | .boolean b => .identifier (booleanText b)
  | .null => .identifier "null"

mutual

/-- The tokens that an expression is printed as. -/
def Expr.tokens : Expr → List Token
  | .and operands => joinTokens .and (Expr.operandTokens operands)
  | .or operands => joinTokens .or (Expr.operandTokens operands)
  | .not e => .not :: wrap e.isCompound e.tokens
  | .delayed e => markerTokens ++ (e.tokens ++ [.rightParen, .rightParen])
  | .function space name arguments =>
    .identifier space :: .colon :: .identifier name :: .leftParen ::
      (joinTokens .comma (Expr.operandTokens arguments) ++ [.rightParen])
  | .comparison op left right => left.tokens ++ .compare op :: right.tokens
  | .identifier name => [.identifier name]
  | .literal value => [value.token]

def Expr.operandTokens : List Expr → List (List Token)
  | [] => []
  | e :: others => wrap e.isCompound e.tokens :: Expr.operandTokens others

end

theorem Expr.operandTokens_eq_map (operands : List Expr) :
    Expr.operandTokens operands = operands.map fun e => wrap e.isCompound e.tokens := by
  induction operands with
  | nil => rw [Expr.operandTokens, List.map_nil]
  | cons e others ih => rw [Expr.operandTokens, ih, List.map_cons]

/-! ## Texts -/

/-- A token as it is printed: operators have a blank on either side, and commas one after them. -/
def Token.printed : Token → List Char
  | .comma => [',', ' ']
  | .and => [' ', '&', '&', ' ']
  | .or => [' ', '|', '|', ' ']
  | .assign => [' ', '=', ' ']
  | .compare op => ' ' :: (op.symbol.toList ++ [' '])
  | t => t.symbol

def Expr.text (e : Expr) : List Char :=
  e.tokens.flatMap Token.printed

theorem spaced_printed (tokens : List Token) : Spaced tokens (tokens.flatMap Token.printed) := by
  induction tokens with
  | nil => exact .nil (by simp)
  | cons t tokens ih =>
    have hblank : ∀ c ∈ [' '], isBlank c = true := by simp [isBlank]
    have hnone : ∀ c ∈ ([] : List Char), isBlank c = true := by simp
    have hprinted : ∃ before after, (∀ c ∈ before, isBlank c = true) ∧ (∀ c ∈ after, isBlank c = true) ∧
        t.printed = before ++ (t.symbol ++ after) := by
      cases t with
      | comma => exact ⟨[], [' '], hnone, hblank, rfl⟩
      | and => exact ⟨[' '], [' '], hblank, hblank, rfl⟩
      | or => exact ⟨[' '], [' '], hblank, hblank, rfl⟩
      | assign => exact ⟨[' '], [' '], hblank, hblank, rfl⟩
      | compare op => exact ⟨[' '], [' '], hblank, hblank, rfl⟩
      | _ => exact ⟨[], [], hnone, hnone, by simp [Token.printed]⟩
    obtain ⟨before, after, hbefore, hafter, hprinted⟩ := hprinted
    rw [List.flatMap_cons, hprinted, List.append_assoc, List.append_assoc]
    exact .cons hbefore (ih.blanks hafter)

/-! ## Reading a text back -/

namespace Token

/-- Tokens that start an operand. -/
def opens : Token → Bool
  | .leftParen | .not | .identifier _ | .number _ | .string _ => true
  | _ => false

/-- Tokens that end an operand. -/
def ends : Token → Bool
  | .rightParen | .identifier _ | .number _ | .string _ => true
  | _ => false

/-- Tokens that come after an operand. -/
def breaks : Token → Bool
  | .rightParen | .comma | .and | .or | .compare _ => true
  | _ => false

theorem head_of_opens {u : Token} (hu : u.opens = true) (hwritable : u.Writable) :
    ∀ c ∈ u.symbol.head?, c ≠ '=' ∧ c ≠ '~' := by
  intro c hc
  cases u with
  | leftParen | not | string s =>
    simp only [symbol, List.head?_cons, Option.mem_some_iff] at hc
    subst hc
    decide
  | identifier name =>
    obtain ⟨d, rest, hname, hd, -⟩ := hwritable
    obtain rfl : d = c := by simpa [symbol, hname] using hc
    constructor
    · rintro rfl
      exact absurd hd (by decide)
    · rintro rfl
      exact absurd hd (by decide)
  | number x =>
    obtain ⟨p, hp, hchars, -⟩ := exists_numberText hwritable.isNaN hwritable.isInf hwritable.read
    obtain ⟨d, rest, hcons⟩ := List.exists_cons_of_ne_nil hp.whole_ne_nil
    have hc : c = '-' ∨ c.isDigit = true := by
      rw [symbol, hchars, NumberParts.chars, NumberParts.magnitude, hcons] at hc
      split at hc
      · exact .inl (by simpa [eq_comm] using hc)
      · obtain rfl : d = c := by simpa using hc
        exact .inr (hp.isDigit_whole d (by simp [hcons]))
    constructor
    · rintro rfl
      exact absurd hc (by decide)
    · rintro rfl
      exact absurd hc (by decide)
  | _ => simp [opens] at hu

theorem separable_opens {t u : Token} (ht : t.ends = false) (hu : u.opens = true) (hwritable : u.Writable) :
    t.Separable u := by
  intro c hc
  obtain ⟨hassign, htilde⟩ := head_of_opens hu hwritable c hc
  cases t with
  | compare op => cases op <;> simp [admits, hassign]
  | _ => simp_all [admits, ends]

theorem separable_word {name : String} {u : Token} (h : u.symbol.head?.any isIdentifierChar = false) :
    (Token.identifier name).Separable u := by
  intro c hc
  simpa [admits] using (Option.any_eq_false _ _).mp h c hc

theorem separable_breaks {t u : Token} (ht : t.ends = true) (hu : u.breaks = true) : t.Separable u := by
  have hword : u.symbol.head?.any isIdentifierChar = false := by
    cases u with
    | compare op => cases op <;> rfl
    | rightParen | comma | and | or => rfl
    | _ => simp [breaks] at hu
  intro c hc
  cases t with
  | identifier name | number x => simpa [admits] using (Option.any_eq_false _ _).mp hword c hc
  | rightParen | string s => rfl
  | _ => simp [ends] at ht

end Token

/-- Tokens of an operand: they can be written, start as one and run into what comes after an operand. -/
structure Runs (tokens : List Token) : Prop where
  starts : ∃ t rest, tokens = t :: rest ∧ t.opens = true
  writable : ∀ t ∈ tokens, t.Writable
  chain : ∀ rest : List Token, rest.IsChain Token.Separable → (∀ u ∈ rest.head?, u.breaks = true) →
    (tokens ++ rest).IsChain Token.Separable

namespace Runs

variable {tokens others : List Token} {t : Token}

theorem single (hopens : t.opens = true) (hends : t.ends = true) (hwritable : t.Writable) : Runs [t] where
  starts := ⟨t, [], rfl, hopens⟩
  writable := by simpa using hwritable
  chain rest hrest hbreaks := hrest.cons fun u hu => Token.separable_breaks hends (hbreaks u hu)

theorem literal {value : Literal} (hvalue : value.IsWritable) : Runs [value.token] := by
  cases value with
  | string s => exact .single rfl rfl trivial
  | number x => exact .single rfl rfl hvalue
  | boolean b =>
    cases b with
    | true => exact .single rfl rfl (show IsName "true" by decide)
    | false => exact .single rfl rfl (show IsName "false" by decide)
  | null => exact .single rfl rfl (show IsName "null" by decide)

theorem chain_cons (h : Runs tokens) (ht : t.ends = false) {rest : List Token} (hrest : rest.IsChain Token.Separable)
    (hbreaks : ∀ u ∈ rest.head?, u.breaks = true) : (t :: (tokens ++ rest)).IsChain Token.Separable := by
  refine (h.chain rest hrest hbreaks).cons fun u hu => ?_
  obtain ⟨v, tail, rfl, hopens⟩ := h.starts
  obtain rfl : v = u := by simpa using hu
  exact Token.separable_opens ht hopens (h.writable v (by simp))

theorem cons (h : Runs tokens) (hopens : t.opens = true) (ht : t.ends = false) (hwritable : t.Writable) :
    Runs (t :: tokens) where
  starts := ⟨t, tokens, rfl, hopens⟩
  writable := List.forall_mem_cons.mpr ⟨hwritable, h.writable⟩
  chain _ hrest hbreaks := h.chain_cons ht hrest hbreaks

theorem append (h : Runs tokens) (h' : Runs others) (hbreaks : t.breaks = true) (ht : t.ends = false) :
    Runs (tokens ++ t :: others) where
  starts := by
    obtain ⟨u, rest, rfl, hopens⟩ := h.starts
    exact ⟨u, rest ++ t :: others, rfl, hopens⟩
  writable := by
    have hwritable : t.Writable := by
      cases t with
      | identifier name => simp [Token.breaks] at hbreaks
      | number x => simp [Token.breaks] at hbreaks
      | _ => trivial
    exact List.forall_mem_append.mpr ⟨h.writable, List.forall_mem_cons.mpr ⟨hwritable, h'.writable⟩⟩
  chain rest hrest hnext := by
    rw [List.append_assoc]
    refine h.chain _ (h'.chain_cons ht hrest hnext) fun u hu => ?_
    obtain rfl : t = u := by simpa using hu
    exact hbreaks

theorem chain_close {rest : List Token} (hrest : rest.IsChain Token.Separable)
    (hbreaks : ∀ u ∈ rest.head?, u.breaks = true) : (Token.rightParen :: rest).IsChain Token.Separable :=
  hrest.cons fun u hu => Token.separable_breaks rfl (hbreaks u hu)

theorem chain_parens (h : tokens = [] ∨ Runs tokens) {rest : List Token} (hrest : rest.IsChain Token.Separable)
    (hbreaks : ∀ u ∈ rest.head?, u.breaks = true) :
    (Token.leftParen :: (tokens ++ Token.rightParen :: rest)).IsChain Token.Separable := by
  rcases h with rfl | h
  · exact (chain_close hrest hbreaks).cons fun _ _ _ _ => rfl
  · exact h.chain_cons rfl (chain_close hrest hbreaks) (by simp [Token.breaks])

theorem wrap (h : Runs tokens) (isCompound : Bool) : Runs (wrap isCompound tokens) := by
  cases isCompound with
  | false => exact h
  | true =>
    refine ⟨⟨.leftParen, _, rfl, rfl⟩, ?_, fun rest hrest hbreaks => ?_⟩
    · intro t ht
      simp only [Query.wrap, if_true, List.mem_cons, List.mem_append, List.not_mem_nil, or_false] at ht
      rcases ht with rfl | ht | rfl
      · trivial
      · exact h.writable t ht
      · trivial
    · have := chain_parens (.inr h) hrest hbreaks
      simpa [Query.wrap] using this

theorem join {lists : List (List Token)} (hne : lists ≠ []) (h : ∀ l ∈ lists, Runs l) (hbreaks : t.breaks = true)
    (ht : t.ends = false) : Runs (joinTokens t lists) := by
  obtain ⟨first, others, rfl⟩ := List.exists_cons_of_ne_nil hne
  obtain ⟨hfirst, hothers⟩ := List.forall_mem_cons.mp h
  clear h hne
  change Runs (first ++ others.flatMap fun tokens => t :: tokens)
  induction others generalizing first with
  | nil => simpa using hfirst
  | cons second others ih =>
    obtain ⟨hsecond, hothers⟩ := List.forall_mem_cons.mp hothers
    rw [List.flatMap_cons, ← List.append_assoc]
    exact ih (first ++ t :: second) (hfirst.append hsecond hbreaks ht) hothers

theorem behindMarker (h : Runs tokens) :
    Runs (.leftParen :: .leftParen :: .identifier "_Delayed_" :: .assign :: .identifier "true" :: .rightParen :: .and ::
      (tokens ++ [.rightParen])) where
  starts := ⟨.leftParen, _, rfl, rfl⟩
  writable := by
    have hmarker : IsName "_Delayed_" := by decide
    have htrue : IsName "true" := by decide
    intro t ht
    simp only [List.mem_cons, List.mem_append, List.not_mem_nil, or_false] at ht
    rcases ht with rfl | rfl | rfl | rfl | rfl | rfl | rfl | ht | rfl
    any_goals trivial
    exact h.writable t ht
  chain rest hrest hbreaks := by
    have htrue : IsName "true" := by decide
    have hbody : (Token.and :: (tokens ++ .rightParen :: rest)).IsChain Token.Separable :=
      h.chain_cons rfl (chain_close hrest hbreaks) (by simp [Token.breaks])
    simp only [List.cons_append, List.append_assoc, List.nil_append]
    refine .cons_cons (fun _ _ => rfl) (.cons_cons (fun _ _ => rfl) ?_)
    refine .cons_cons (Token.separable_word rfl) (.cons_cons (Token.separable_opens rfl rfl htrue) ?_)
    exact .cons_cons (Token.separable_word rfl) (.cons_cons (fun _ _ => rfl) hbody)

theorem marked (h : Runs tokens) : Runs (markerTokens ++ (tokens ++ [.rightParen, .rightParen])) := by
  have hbody := (h.wrap true).behindMarker
  simpa [Query.wrap, markerTokens] using hbody

theorem call {space name : String} (hspace : IsName space) (hname : IsName name) (h : tokens = [] ∨ Runs tokens) :
    Runs (.identifier space :: .colon :: .identifier name :: .leftParen :: (tokens ++ [.rightParen])) where
  starts := ⟨.identifier space, _, rfl, rfl⟩
  writable := by
    intro t ht
    simp only [List.mem_cons, List.mem_append, List.not_mem_nil, or_false] at ht
    rcases ht with rfl | rfl | rfl | rfl | ht | rfl
    any_goals trivial
    rcases h with rfl | h
    · simp at ht
    · exact h.writable t ht
  chain rest hrest hbreaks := by
    have hbody := chain_parens h hrest hbreaks
    simp only [List.cons_append, List.append_assoc, List.nil_append]
    refine .cons_cons (Token.separable_word rfl) (.cons_cons (Token.separable_opens rfl rfl hname) ?_)
    exact .cons_cons (Token.separable_word rfl) hbody

end Runs

theorem runs_join_operands {operands : List Expr} {t : Token} (h : ∀ e ∈ operands, Runs e.tokens)
    (hbreaks : t.breaks = true) (ht : t.ends = false) :
    joinTokens t (Expr.operandTokens operands) = [] ∨ Runs (joinTokens t (Expr.operandTokens operands)) := by
  rw [Expr.operandTokens_eq_map]
  cases operands with
  | nil => exact .inl rfl
  | cons e others =>
    refine .inr (.join (by simp) ?_ hbreaks ht)
    intro l hl
    obtain ⟨e', he', rfl⟩ := List.mem_map.mp hl
    exact (h e' he').wrap _

theorem joinTokens_ne_nil {operands : List Expr} (h : ∀ e ∈ operands, Runs e.tokens) (hlen : 2 ≤ operands.length)
    (t : Token) : joinTokens t (Expr.operandTokens operands) ≠ [] := by
  obtain ⟨e, others, rfl⟩ := List.exists_cons_of_length_pos (Nat.lt_of_lt_of_le (by decide) hlen)
  obtain ⟨u, rest, hstart, -⟩ := ((h e (by simp)).wrap e.isCompound).starts
  simp [Expr.operandTokens, joinTokens, hstart]

theorem Expr.IsNormal.runs {reserved : List String} {e : Expr} (h : e.IsNormal reserved) : Runs e.tokens := by
  induction h with
  | and hlen hflat hoperands ih =>
    rw [Expr.tokens]
    exact (runs_join_operands ih rfl rfl).resolve_left (joinTokens_ne_nil ih hlen _)
  | or hlen hflat hoperands ih =>
    rw [Expr.tokens]
    exact (runs_join_operands ih rfl rfl).resolve_left (joinTokens_ne_nil ih hlen _)
  | @not e he ih =>
    rw [Expr.tokens]
    exact (ih.wrap e.isCompound).cons rfl rfl trivial
  | delayed he ih =>
    rw [Expr.tokens]
    exact ih.marked
  | function hspace hname harguments ih =>
    rw [Expr.tokens]
    exact Runs.call hspace hname (runs_join_operands ih rfl rfl)
  | comparison hleft hright _ _ ihleft ihright =>
    rw [Expr.tokens]
    exact ihleft.append ihright rfl rfl
  | identifier hname hfree =>
    rw [Expr.tokens]
    exact .single rfl rfl hname
  | literal hvalue =>
    rw [Expr.tokens]
    exact .literal hvalue

/-- The text of a normal expression has the tokens that it is printed as. -/
theorem tokenize_text {reserved : List String} {e : Expr} (h : e.IsNormal reserved) :
    tokenize e.text = some e.tokens := by
  have hchain := h.runs.chain [] .nil (by simp)
  rw [List.append_nil] at hchain
  exact tokenize_spaced (spaced_printed e.tokens) h.runs.writable hchain

end ProximitySearch.Query
