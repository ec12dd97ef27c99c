import ProximitySearch.Decimal
import ProximitySearch.Query.Literal
import ProximitySearch.Query.Quoted

/-!
# Tokens

A query text is cut into tokens, each the longest that starts where the last one ended. Blanks separate tokens and are
dropped. A text with anything else in it has no tokens at all.
-/

namespace ProximitySearch.Query

/-- A token of a query. -/
inductive Token where
  | leftParen
  | rightParen
  | comma
  | colon
  | and
  | or
  | not
  | assign
  | compare (op : CompareOp)
  | identifier (name : String)
  | number (value : Float)
  | string (value : String)
deriving DecidableEq

/-! ## Characters -/

/-- Characters between tokens. -/
def isBlank (c : Char) : Bool :=
  c == ' ' || c == '\t' || c == '\r' || c == '\n'

/-- Characters that start an identifier: an ASCII letter, `_` or `$`. -/
def isIdentifierStart (c : Char) : Bool :=
  c.isAlpha || c == '_' || c == '$'

/-- Characters that continue an identifier: those that start one, a digit or a point. -/
def isIdentifierChar (c : Char) : Bool :=
  c.isAlphanum || c == '_' || c == '$' || c == '.'

/-! ## Scanning -/

/-- The decimals that a text starts with, and what follows. A point without a digit after it starts none. -/
def scanFraction : List Char → List Char × List Char
  | '.' :: text =>
    if (text.takeWhile Char.isDigit).isEmpty then ([], '.' :: text)
    else (text.takeWhile Char.isDigit, text.dropWhile Char.isDigit)
  | text => ([], text)

/-- A number that the text starts with, whose sign has been read. An identifier may not follow it directly. -/
def scanNumber (negative : Bool) (text : List Char) : Option (Token × List Char) :=
  let whole := text.takeWhile Char.isDigit
  let fraction := scanFraction (text.dropWhile Char.isDigit)
  if whole.isEmpty || fraction.2.head?.any isIdentifierChar then none
  else some (.number (Decimal.ofParts negative whole fraction.1 0).toFloat, fraction.2)

/-- The token that starts with `c` and goes on in `text`. -/
def scanToken (c : Char) (text : List Char) : Option (Token × List Char) :=
  match c, text with
  | '(', rest => some (.leftParen, rest)
  | ')', rest => some (.rightParen, rest)
  | ',', rest => some (.comma, rest)
  | ':', rest => some (.colon, rest)
  | '&', '&' :: rest => some (.and, rest)
  | '|', '|' :: rest => some (.or, rest)
  | '!', '=' :: rest => some (.compare .ne, rest)
  | '!', '~' :: rest => some (.compare .regexNotMatch, rest)
  | '!', rest => some (.not, rest)
  | '=', '=' :: rest => some (.compare .eq, rest)
  | '=', '~' :: rest => some (.compare .regexMatch, rest)
  | '=', rest => some (.assign, rest)
  | '<', '=' :: rest => some (.compare .le, rest)
  | '<', rest => some (.compare .lt, rest)
  | '>', '=' :: rest => some (.compare .ge, rest)
  | '>', rest => some (.compare .gt, rest)
  | '-', rest => scanNumber true rest
  | c, rest =>
    if c = '\'' ∨ c = '"' then
      (scanBody c rest).map fun (body, rest) => (.string (String.ofList (unescape body)), rest)
    else if c.isDigit then scanNumber false (c :: rest)
    else if isIdentifierStart c then
      some (.identifier (String.ofList (c :: rest.takeWhile isIdentifierChar)), rest.dropWhile isIdentifierChar)
    else none

theorem length_dropWhile_le {α : Type} (p : α → Bool) (l : List α) : (l.dropWhile p).length ≤ l.length :=
  (List.dropWhile_suffix p).length_le

theorem scanBody_length {quote : Char} {text body rest : List Char}
    (h : scanBody quote text = some (body, rest)) : rest.length < text.length := by
  fun_induction scanBody quote text generalizing body with
  | case1 => simp at h
  | case2 => simp at h
  | case3 d tail ih =>
    obtain ⟨⟨body', rest'⟩, h', heq⟩ := Option.map_eq_some_iff.mp h
    obtain ⟨-, rfl⟩ := Prod.mk.inj heq
    have := ih h'
    simp only [List.length_cons]
    omega
  | case4 => simp_all
  | case5 c tail _ _ ih =>
    obtain ⟨⟨body', rest'⟩, h', heq⟩ := Option.map_eq_some_iff.mp h
    obtain ⟨-, rfl⟩ := Prod.mk.inj heq
    have := ih h'
    simp only [List.length_cons]
    omega

theorem length_dropWhile_lt {α : Type} {p : α → Bool} {l : List α} (h : (l.takeWhile p).isEmpty = false) :
    (l.dropWhile p).length < l.length := by
  have := congrArg List.length (List.takeWhile_append_dropWhile (p := p) (l := l))
  have := List.length_pos_iff.mpr (List.isEmpty_eq_false_iff.mp h)
  simp only [List.length_append] at *
  omega

theorem scanFraction_length (text : List Char) : (scanFraction text).2.length ≤ text.length := by
  unfold scanFraction
  split
  · next text =>
    have := length_dropWhile_le Char.isDigit text
    split
    · exact Nat.le_refl _
    · exact Nat.le_succ_of_le this
  · exact Nat.le_refl _

theorem scanNumber_length {negative : Bool} {text rest : List Char} {t : Token}
    (h : scanNumber negative text = some (t, rest)) : rest.length < text.length := by
  unfold scanNumber at h
  dsimp only at h
  split at h
  · simp at h
  · next hwhole =>
    simp only [Bool.or_eq_true, not_or, Bool.not_eq_true] at hwhole
    obtain ⟨-, rfl⟩ := Prod.mk.inj (Option.some.inj h)
    exact Nat.lt_of_le_of_lt (scanFraction_length _) (length_dropWhile_lt hwhole.1)

theorem scanToken_length {c : Char} {text rest : List Char} {t : Token}
    (h : scanToken c text = some (t, rest)) : rest.length ≤ text.length := by
  unfold scanToken at h
  split at h
  case h_18 =>
    split at h
    · obtain ⟨⟨body, rest'⟩, h', heq⟩ := Option.map_eq_some_iff.mp h
      obtain ⟨-, rfl⟩ := Prod.mk.inj heq
      exact Nat.le_of_lt (scanBody_length h')
    · split at h
      · exact Nat.le_of_lt_succ (scanNumber_length h)
      · split at h
        · obtain ⟨-, rfl⟩ := Prod.mk.inj (Option.some.inj h)
          exact length_dropWhile_le _ _
        · simp at h
  case h_17 => exact Nat.le_of_lt (scanNumber_length h)
  all_goals
    obtain ⟨-, rfl⟩ := Prod.mk.inj (Option.some.inj h)
    simp

/-- Tokens of a text. -/
def tokenize (text : List Char) : Option (List Token) :=
  match text with
  | [] => some []
  | c :: rest =>
    if isBlank c then tokenize rest
    else
      match _h : scanToken c rest with
      | none => none
      | some (t, rest) => (tokenize rest).map (t :: ·)
termination_by text.length
decreasing_by
  · simp
  · have := scanToken_length _h
    simp only [List.length_cons]
    omega

end ProximitySearch.Query
