import Mathlib.Data.List.Chain
import ProximitySearch.Proofs.NumberText

/-!
# Spelling tokens

Tokens are spelled one after the other, with blanks between them or none (`Spaced`). A text so spelled has
these tokens if each can be read at all (`Token.Writable`) and no two are run into one another, as two words
would be (`Token.Separable`, `tokenize_spaced`).
-/

namespace ProximitySearch.Query

/-! ## Strings -/

section Body

variable {quote c : Char} {rest : List Char}

theorem scanBody_quote (hquote : quote ≠ '\\') : scanBody quote (quote :: rest) = some ([], rest) := by
  unfold scanBody
  rw [if_neg hquote, if_pos rfl]

theorem scanBody_plain (hslash : c ≠ '\\') (hquote : c ≠ quote) :
    scanBody quote (c :: rest) = (scanBody quote rest).map fun (body, rest) => (c :: body, rest) := by
  rw [scanBody.eq_def]
  simp only [hslash, hquote, if_false]

theorem scanBody_slash : scanBody quote ('\\' :: c :: rest) =
    (scanBody quote rest).map fun (body, rest) => ('\\' :: c :: body, rest) := by
  rw [scanBody.eq_def]
  rfl

theorem unescape_plain (hslash : c ≠ '\\') : unescape (c :: rest) = c :: unescape rest := by
  rw [unescape.eq_def]
  cases rest <;> simp [hslash]

theorem unescape_slash : unescape ('\\' :: c :: rest) = escapedChar c :: unescape rest := by
  rw [unescape.eq_def]
  rfl

theorem escape_cons (text : List Char) : escape quote (c :: text) =
    (if c = '\\' ∨ c = quote then ['\\', c] else [c]) ++ escape quote text := rfl

theorem scanBody_escape (hquote : quote ≠ '\\') (text : List Char) :
    scanBody quote (escape quote text ++ quote :: rest) = some (escape quote text, rest) := by
  induction text with
  | nil => exact scanBody_quote hquote
  | cons c text ih =>
    rw [escape_cons]
    split
    · change scanBody quote ('\\' :: c :: (escape quote text ++ quote :: rest)) = _
      rw [scanBody_slash, ih]
      rfl
    · next hplain =>
      obtain ⟨hslash, hc⟩ := not_or.mp hplain
      change scanBody quote (c :: (escape quote text ++ quote :: rest)) = _
      rw [scanBody_plain hslash hc, ih]
      rfl

theorem unescape_escape (hquote : escapedChar quote = quote) (text : List Char) :
    unescape (escape quote text) = text := by
  induction text with
  | nil => rfl
  | cons c text ih =>
    rw [escape_cons]
    split
    · next hescaped =>
      have hc : escapedChar c = c := by
        rcases hescaped with rfl | rfl
        · rfl
        · exact hquote
      change unescape ('\\' :: c :: escape quote text) = _
      rw [unescape_slash, hc, ih]
    · next hplain =>
      change unescape (c :: escape quote text) = _
      rw [unescape_plain (not_or.mp hplain).1, ih]

theorem ne_slash_of_quote (hquote : quote = '\'' ∨ quote = '"') : quote ≠ '\\' := by
  rcases hquote with rfl | rfl
  · decide
  · decide

theorem escapedChar_quote (hquote : quote = '\'' ∨ quote = '"') : escapedChar quote = quote := by
  rcases hquote with rfl | rfl
  · rfl
  · rfl

end Body

/-! ## Tokens -/

/-- A name as the grammar has it. -/
def IsName (name : String) : Prop :=
  ∃ c rest, name.toList = c :: rest ∧ isIdentifierStart c = true ∧ rest.all isIdentifierChar = true

instance (name : String) : Decidable (IsName name) :=
  match h : name.toList with
  | [] => .isFalse fun ⟨c, rest, hname, _⟩ => by simp [h] at hname
  | c :: rest =>
    decidable_of_iff (isIdentifierStart c = true ∧ rest.all isIdentifierChar = true) <| by
      simp [IsName, h]

/-- A finite number whose text reads back as the number. -/
structure ReadsBack (x : Float) : Prop where
  isNaN : x.isNaN = false
  isInf : x.isInf = false
  read : Decimal.readFloat? (numberText x) = some x

namespace Token

def symbol : Token → List Char
  | .leftParen => ['(']
  | .rightParen => [')']
  | .comma => [',']
  | .colon => [':']
  | .and => ['&', '&']
  | .or => ['|', '|']
  | .not => ['!']
  | .assign => ['=']
  | .compare op => op.symbol.toList
  | .identifier name => name.toList
  | .number x => (numberText x).toList
  | .string s => '\'' :: (escape '\'' s.toList ++ ['\''])

/-- Tokens that are read back from their spelling. -/
def Writable : Token → Prop
  | .identifier name => IsName name
  | .number x => ReadsBack x
  | _ => True

/-- Whether a character may follow the spelling of a token directly, and the token still ends there. -/
def admits : Token → Char → Bool
  | .not, c | .assign, c => c != '=' && c != '~'
  | .compare .lt, c | .compare .gt, c => c != '='
  | .identifier _, c | .number _, c => !isIdentifierChar c
  | _, _ => true

/-- The spelling of a token may follow that of another directly. -/
def Separable (t u : Token) : Prop :=
  ∀ c ∈ u.symbol.head?, t.admits c = true

end Token

/-! ## Scanning -/

theorem isDigit_of_isIdentifierStart {c : Char} (hc : isIdentifierStart c = true) : c.isDigit = false := by
  delta isIdentifierStart Char.isAlpha Char.isUpper Char.isLower at hc
  delta Char.isDigit
  simp only [Bool.or_eq_true, decide_eq_true_eq, beq_iff_eq, Bool.and_eq_true, ge_iff_le,
    UInt32.le_iff_toNat_le] at hc
  simp only [Bool.and_eq_false_iff, decide_eq_false_iff_not, ge_iff_le, UInt32.le_iff_toNat_le]
  have hnine : ('9'.val).toNat = 57 := rfl
  have hzero : ('0'.val).toNat = 48 := rfl
  have hA : ('A'.val).toNat = 65 := rfl
  have ha : ('a'.val).toNat = 97 := rfl
  rcases hc with ((hc | hc) | rfl) | rfl
  · omega
  · omega
  · decide
  · decide

theorem scanToken_name {c : Char} {tail rest : List Char} (hc : isIdentifierStart c = true)
    (htail : ∀ d ∈ tail, isIdentifierChar d = true) (hrest : ∀ d ∈ rest.head?, isIdentifierChar d = false) :
    scanToken c (tail ++ rest) = some (.identifier (String.ofList (c :: tail)), rest) := by
  obtain ⟨htake, hdrop⟩ := span_append htail hrest
  have hquote : ¬(c = '\'' ∨ c = '"') := by
    rintro (rfl | rfl)
    · exact absurd hc (by decide)
    · exact absurd hc (by decide)
  have hdigit : ¬c.isDigit = true := by simp [isDigit_of_isIdentifierStart hc]
  unfold scanToken
  split
  case h_18 => rw [if_neg hquote, if_neg hdigit, if_pos hc, htake, hdrop]
  all_goals exact absurd hc (by decide)

theorem scanToken_digit {c : Char} {text : List Char} (hc : c.isDigit = true) :
    scanToken c text = scanNumber false (c :: text) := by
  have hquote : ¬(c = '\'' ∨ c = '"') := by
    rintro (rfl | rfl)
    · exact absurd hc (by decide)
    · exact absurd hc (by decide)
  unfold scanToken
  split
  case h_18 => rw [if_neg hquote, if_pos hc]
  all_goals exact absurd hc (by decide)

theorem isBlank_iff {c : Char} : isBlank c = true ↔ c = ' ' ∨ c = '\t' ∨ c = '\r' ∨ c = '\n' := by
  simp only [isBlank, Bool.or_eq_true, beq_iff_eq, or_assoc]

theorem isBlank_eq_false {p : Char → Bool} {c : Char} (hc : p c = true)
    (hp : [' ', '\t', '\r', '\n'].any p = false) : isBlank c = false := by
  by_contra hblank
  have hmem : c ∈ [' ', '\t', '\r', '\n'] := by simpa using isBlank_iff.mp (Bool.not_eq_false _ ▸ hblank)
  exact List.any_eq_false.mp hp c hmem hc

theorem scanToken_number {x : Float} (hx : ReadsBack x) {rest : List Char}
    (hrest : ∀ c ∈ rest.head?, isIdentifierChar c = false) :
    ∃ c tail, (numberText x).toList = c :: tail ∧ isBlank c = false ∧
      scanToken c (tail ++ rest) = some (.number x, rest) := by
  obtain ⟨p, hp, hchars, rfl⟩ := exists_numberText hx.isNaN hx.isInf hx.read
  have hscan := scanNumber_magnitude hp hrest
  obtain ⟨negative, whole, fraction⟩ := p
  cases negative with
  | true => exact ⟨'-', _, hchars, rfl, hscan⟩
  | false =>
    obtain ⟨c, tail, hcons⟩ := List.exists_cons_of_ne_nil hp.whole_ne_nil
    obtain rfl : whole = c :: tail := hcons
    have hc : c.isDigit = true := hp.isDigit_whole c (by simp)
    refine ⟨c, _, hchars, isBlank_eq_false hc rfl, ?_⟩
    rw [scanToken_digit hc]
    exact hscan

theorem scanToken_quote {quote : Char} (hquote : quote = '\'' ∨ quote = '"') (text : List Char) :
    scanToken quote text =
      (scanBody quote text).map fun (body, rest) => (.string (String.ofList (unescape body)), rest) := by
  rcases hquote with rfl | rfl
  · rfl
  · rfl

theorem scanToken_string {quote : Char} (hquote : quote = '\'' ∨ quote = '"') (s : String) (rest : List Char) :
    scanToken quote (escape quote s.toList ++ quote :: rest) = some (.string s, rest) := by
  rw [scanToken_quote hquote, scanBody_escape (ne_slash_of_quote hquote), Option.map_some]
  simp only [unescape_escape (escapedChar_quote hquote), String.ofList_toList]

/-- A token is read from its spelling, and no further, if what follows may follow it. -/
theorem scanToken_symbol {t : Token} (ht : t.Writable) {rest : List Char}
    (hrest : ∀ c ∈ rest.head?, t.admits c = true) :
    ∃ c tail, t.symbol = c :: tail ∧ isBlank c = false ∧ scanToken c (tail ++ rest) = some (t, rest) := by
  -- what may follow a word or a number is no character of a word
  have hword (hadmits : ∀ c, t.admits c = !isIdentifierChar c) : ∀ c ∈ rest.head?, isIdentifierChar c = false := by
    intro c hc
    simpa [hadmits] using hrest c hc
  cases t with
  | leftParen | rightParen | comma | colon | and | or => exact ⟨_, _, rfl, rfl, rfl⟩
  | not | assign =>
    refine ⟨_, _, rfl, rfl, ?_⟩
    cases rest with
    | nil => rfl
    | cons d rest =>
      have hd := hrest d rfl
      simp only [Token.admits, Bool.and_eq_true, bne_iff_ne] at hd
      simp [scanToken, hd]
  | compare op =>
    cases op with
    | lt =>
      refine ⟨'<', [], rfl, rfl, ?_⟩
      cases rest with
      | nil => rfl
      | cons d rest =>
        have hd : d ≠ '=' := by simpa [Token.admits] using hrest d rfl
        simp [scanToken, hd]
    | gt =>
      refine ⟨'>', [], rfl, rfl, ?_⟩
      cases rest with
      | nil => rfl
      | cons d rest =>
        have hd : d ≠ '=' := by simpa [Token.admits] using hrest d rfl
        simp [scanToken, hd]
    | _ => exact ⟨_, _, rfl, rfl, rfl⟩
  | identifier name =>
    obtain ⟨c, tail, hname, hc, htail⟩ := ht
    refine ⟨c, tail, hname, isBlank_eq_false hc rfl, ?_⟩
    rw [scanToken_name hc (List.all_eq_true.mp htail) (hword fun _ => rfl), ← hname, String.ofList_toList]
  | number x => exact scanToken_number ht (hword fun _ => rfl)
  | string s =>
    refine ⟨'\'', _, rfl, rfl, ?_⟩
    rw [List.append_assoc, List.singleton_append]
    exact scanToken_string (.inl rfl) s rest

/-! ## Texts -/

/-- Tokens as they are spelled in a text, with any blanks between them, before the first and after the last. -/
inductive Spaced : List Token → List Char → Prop
  | nil {blanks : List Char} (hblanks : ∀ c ∈ blanks, isBlank c = true) : Spaced [] blanks
  | cons {t : Token} {tokens : List Token} {blanks text : List Char} (hblanks : ∀ c ∈ blanks, isBlank c = true)
      (htext : Spaced tokens text) : Spaced (t :: tokens) (blanks ++ (t.symbol ++ text))

theorem Spaced.blanks {tokens : List Token} {blanks text : List Char} (hblanks : ∀ c ∈ blanks, isBlank c = true)
    (h : Spaced tokens text) : Spaced tokens (blanks ++ text) := by
  cases h with
  | nil hmore => exact .nil (List.forall_mem_append.mpr ⟨hblanks, hmore⟩)
  | cons hmore htext =>
    rw [← List.append_assoc]
    exact .cons (List.forall_mem_append.mpr ⟨hblanks, hmore⟩) htext

/-- Whether a text spells tokens, where all the blanks before a token are skipped. -/
def spells : List Token → List Char → Bool
  | [], text => text.all isBlank
  | t :: tokens, text =>
    t.symbol.isPrefixOf (text.dropWhile isBlank) && spells tokens ((text.dropWhile isBlank).drop t.symbol.length)

theorem spaced_of_spells {tokens : List Token} {text : List Char} (h : spells tokens text = true) :
    Spaced tokens text := by
  induction tokens generalizing text with
  | nil => exact .nil (List.all_eq_true.mp h)
  | cons t tokens ih =>
    obtain ⟨hsymbol, hrest⟩ := Bool.and_eq_true_iff.mp h
    obtain ⟨rest, hrest'⟩ := List.isPrefixOf_iff_prefix.mp hsymbol
    rw [← hrest', List.drop_left] at hrest
    rw [← List.takeWhile_append_dropWhile (p := isBlank) (l := text), ← hrest']
    exact .cons (List.all_eq_true.mp List.all_takeWhile) (ih hrest)

theorem tokenize_blanks {blanks : List Char} (hblanks : ∀ c ∈ blanks, isBlank c = true) (text : List Char) :
    tokenize (blanks ++ text) = tokenize text := by
  induction blanks with
  | nil => rfl
  | cons c blanks ih =>
    obtain ⟨hc, hblanks⟩ := List.forall_mem_cons.mp hblanks
    rw [List.cons_append, tokenize, if_pos hc, ih hblanks]

theorem Token.admits_blank (t : Token) {c : Char} (hc : isBlank c = true) : t.admits c = true := by
  rcases isBlank_iff.mp hc with rfl | rfl | rfl | rfl
  all_goals
    cases t with
    | compare op => cases op <;> rfl
    | _ => rfl

theorem Token.symbol_ne_nil {t : Token} (ht : t.Writable) : t.symbol ≠ [] := by
  obtain ⟨c, tail, hsymbol, -⟩ := scanToken_symbol ht (show ∀ c ∈ ([] : List Char).head?, t.admits c = true by simp)
  simp [hsymbol]

theorem Spaced.head_admits {t : Token} {tokens : List Token} {text : List Char} (h : Spaced tokens text)
    (hnext : ∀ u ∈ tokens.head?, u.Writable ∧ t.Separable u) : ∀ c ∈ text.head?, t.admits c = true := by
  intro c hc
  cases h with
  | nil hblanks => exact t.admits_blank (hblanks c (List.mem_of_mem_head? hc))
  | @cons u tokens blanks text hblanks htext =>
    obtain ⟨hwritable, hseparable⟩ := hnext u rfl
    cases blanks with
    | cons d blanks =>
      obtain rfl : d = c := by simpa using hc
      exact t.admits_blank (hblanks d (by simp))
    | nil =>
      refine hseparable c ?_
      obtain ⟨d, tail, hsymbol⟩ := List.exists_cons_of_ne_nil (Token.symbol_ne_nil hwritable)
      rw [hsymbol] at hc ⊢
      exact hc

/-- A text has the tokens that it spells. -/
theorem tokenize_spaced {tokens : List Token} {text : List Char} (h : Spaced tokens text)
    (hwritable : ∀ t ∈ tokens, t.Writable) (hchain : tokens.IsChain Token.Separable) :
    tokenize text = some tokens := by
  induction h with
  | nil hblanks =>
    have := tokenize_blanks hblanks []
    rw [List.append_nil] at this
    rw [this, tokenize]
  | @cons t tokens blanks text hblanks htext ih =>
    obtain ⟨ht, htokens⟩ := List.forall_mem_cons.mp hwritable
    have hnext : ∀ u ∈ tokens.head?, u.Writable ∧ t.Separable u := fun u hu =>
      ⟨htokens u (List.mem_of_mem_head? hu), (List.isChain_cons.mp hchain).1 u hu⟩
    have hrest := ih htokens (List.isChain_cons.mp hchain).2
    obtain ⟨c, tail, hsymbol, hc, hscan⟩ := scanToken_symbol ht (htext.head_admits hnext)
    rw [tokenize_blanks hblanks, hsymbol, List.cons_append, tokenize, if_neg (by simp [hc])]
    split
    · next hnone => simp [hscan] at hnone
    · next hsome =>
      obtain ⟨rfl, rfl⟩ := Prod.mk.inj (Option.some.inj (hsome.symm.trans hscan))
      rw [hrest]
      rfl

end ProximitySearch.Query
