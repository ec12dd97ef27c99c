import ProximitySearch.Json.Value

/-!
# Reading JSON

`Value.read?` reads a whole text as one value. It takes the standard at its word: no leading zeros, no trailing commas,
no other blanks than space, tab, line feed and carriage return.
-/

namespace ProximitySearch.Json

/-- Reads something at the front of a text, and gives back the rest. -/
abbrev Reader (α : Type) := List Char → Option (α × List Char)

namespace Reader

/-- The text without blanks in front. -/
def skipBlanks (text : List Char) : List Char :=
  text.dropWhile fun c => c == ' ' || c == '\n' || c == '\t' || c == '\r'

/-- The text after a word. -/
def word? (name : String) (text : List Char) : Option (List Char) :=
  if name.toList.isPrefixOf text then some (text.drop name.length) else none

/-- Digits before the point: a zero alone, or digits that do not start with one. -/
def whole : Reader (List Char)
  | '0' :: rest => if rest.head?.any Char.isDigit then none else some (['0'], rest)
  | text =>
    if (text.takeWhile Char.isDigit).isEmpty then none
    else some (text.takeWhile Char.isDigit, text.dropWhile Char.isDigit)

/-- A point with digits after it, or nothing. -/
def fraction : Reader (List Char)
  | '.' :: rest =>
    if (rest.takeWhile Char.isDigit).isEmpty then none
    else some (rest.takeWhile Char.isDigit, rest.dropWhile Char.isDigit)
  | text => some ([], text)

/-- Sign of an exponent, and what follows it. -/
def exponentSign : List Char → Bool × List Char
  | '+' :: rest => (false, rest)
  | '-' :: rest => (true, rest)
  | text => (false, text)

/-- Value of digits read from the left. -/
def natOfDigits (digits : List Char) : Nat :=
  digits.foldl (fun n c => 10 * n + (c.toNat - '0'.toNat)) 0

/-- An exponent, or nothing. -/
def exponent : Reader (Option Int)
  | [] => some (none, [])
  | mark :: text =>
    if mark = 'e' ∨ mark = 'E' then
      let (negative, text) := exponentSign text
      let digits := text.takeWhile Char.isDigit
      if digits.isEmpty then none
      else
        let magnitude : Int := natOfDigits digits
        some (some (if negative then -magnitude else magnitude), text.dropWhile Char.isDigit)
    else some (none, mark :: text)

/-- A number. -/
def numeral : Reader Numeral := fun text => do
  let (negative, text) := match text with
    | '-' :: rest => (true, rest)
    | _ => (false, text)
  let (whole, text) ← whole text
  let (fraction, text) ← fraction text
  let (exponent, text) ← exponent text
  return (⟨negative, whole, fraction, exponent⟩, text)

/-- Items up to the closing bracket, at least one and at most `count`. -/
def items (value : Reader Value) : (count : Nat) → Reader (List Value)
  | 0, _ => none
  | count + 1, text => do
    let (v, text) ← value text
    match skipBlanks text with
    | ',' :: text => do
      let (rest, text) ← items value count text
      return (v :: rest, text)
    | ']' :: text => return ([v], text)
    | _ => none

/-- Members up to the closing brace, at least one and at most `count`. -/
def members (value : Reader Value) : (count : Nat) → Reader (List (List Char × Value))
  | 0, _ => none
  | count + 1, text =>
    match skipBlanks text with
    | '"' :: text => do
      let (key, text) ← scanBody text
      match skipBlanks text with
      | ':' :: text => do
        let (v, text) ← value text
        match skipBlanks text with
        | ',' :: text => do
          let (rest, text) ← members value count text
          return ((key, v) :: rest, text)
        | '\x7d' :: text => return ([(key, v)], text)
        | _ => none
      | _ => none
    | _ => none

/-- A value with less than `depth` containers in one another and no list longer than `depth`. -/
def value : (depth : Nat) → Reader Value
  | 0, _ => none
  | depth + 1, text =>
    match skipBlanks text with
    | '"' :: text => (scanBody text).map fun (body, text) => (.string body, text)
    | '[' :: text =>
      match skipBlanks text with
      | ']' :: text => some (.array [], text)
      | _ => (items (value depth) depth text).map fun (l, text) => (.array l, text)
    | '\x7b' :: text =>
      match skipBlanks text with
      | '\x7d' :: text => some (.object [], text)
      | _ => (members (value depth) depth text).map fun (l, text) => (.object l, text)
    | 'n' :: _ => (word? "null" (skipBlanks text)).map fun text => (.null, text)
    | 't' :: _ => (word? "true" (skipBlanks text)).map fun text => (.boolean true, text)
    | 'f' :: _ => (word? "false" (skipBlanks text)).map fun text => (.boolean false, text)
    | text => (numeral text).map fun (n, text) => (.number n, text)

end Reader

/-- The value that a text writes. Neither nesting nor a list can be longer than the text is. -/
def Value.read? (text : String) : Option Value := do
  let chars := text.toList
  let (v, rest) ← Reader.value (chars.length + 1) chars
  if (Reader.skipBlanks rest).isEmpty then some v else none

end ProximitySearch.Json
