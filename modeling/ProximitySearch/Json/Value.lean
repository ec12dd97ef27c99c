import ProximitySearch.Json.Quoted

/-!
# JSON values

A value as it is written: numbers keep their digits, strings their escapes, and objects their members in order, repeated
keys included. What a number, a string or an object means is decided by whoever decodes it.
-/

namespace ProximitySearch.Json

/-- A number as it is written: digits before and after the point, and an exponent. -/
structure Numeral where
  negative : Bool
  whole : List Char
  fraction : List Char
  exponent : Option Int
deriving DecidableEq, Repr

/-- A value as it is written. Strings and keys are bodies, without their quotes. -/
inductive Value where
  | null
  | boolean (value : Bool)
  | number (numeral : Numeral)
  | string (body : List Char)
  | array (items : List Value)
  | object (members : List (List Char × Value))

/-- Text of an exponent, with its sign and without leading zeros. -/
def exponentChars (exponent : Int) : List Char :=
  'e' :: (if exponent < 0 then '-' else '+') :: Nat.toDigits 10 exponent.natAbs

/-- Text of a number. -/
def Numeral.chars (n : Numeral) : List Char :=
  (if n.negative then ['-'] else []) ++ n.whole ++
    (if n.fraction.isEmpty then [] else '.' :: n.fraction) ++
    (n.exponent.map exponentChars).getD []

/-- A string in its quotes. -/
def quote (body : List Char) : List Char := '"' :: (body ++ ['"'])

mutual

/-- Text of a value, without blanks. -/
def Value.chars : Value → List Char
  | .null => "null".toList
  | .boolean true => "true".toList
  | .boolean false => "false".toList
  | .number n => n.chars
  | .string body => quote body
  | .array items => '[' :: (itemChars items ++ [']'])
  | .object members => '\x7b' :: (memberChars members ++ ['\x7d'])

/-- Texts of items with commas between them. -/
def itemChars : List Value → List Char
  | [] => []
  | [v] => v.chars
  | v :: rest => v.chars ++ ',' :: itemChars rest

/-- Texts of members with commas between them. -/
def memberChars : List (List Char × Value) → List Char
  | [] => []
  | [(key, v)] => quote key ++ ':' :: v.chars
  | (key, v) :: rest => quote key ++ ':' :: (v.chars ++ ',' :: memberChars rest)

end

/-- Text of a value. -/
def Value.text (v : Value) : String := String.ofList v.chars

end ProximitySearch.Json
