import ProximitySearch.Decimal

/-!
# Reading numbers

`Decimal.readFloat?` reads a number as people and programs write it: an optional sign, digits with a point anywhere
among or around them, an optional exponent; or a name of infinity or of no number.
-/

namespace ProximitySearch.Decimal

/-- A sign, and what follows it. -/
def splitSign : List Char → Bool × List Char
  | '-' :: rest => (true, rest)
  | '+' :: rest => (false, rest)
  | rest => (false, rest)

/-- An exponent mark with its digits, which must end the text; zero where there is nothing. -/
def readExponent? : List Char → Option Int
  | [] => some 0
  | mark :: rest =>
    let (negative, digits) := splitSign rest
    if (mark = 'e' ∨ mark = 'E') ∧ !digits.isEmpty ∧ digits.all Char.isDigit then
      some (if negative then -(ofDigits digits : Int) else ofDigits digits)
    else none

/-- Digits with an optional point and an optional exponent. -/
def readDecimal? (negative : Bool) (chars : List Char) : Option Decimal :=
  let whole := chars.takeWhile Char.isDigit
  let (fraction, rest) :=
    match chars.dropWhile Char.isDigit with
    | '.' :: rest => (rest.takeWhile Char.isDigit, rest.dropWhile Char.isDigit)
    | rest => ([], rest)
  if whole.isEmpty && fraction.isEmpty then none
  else (readExponent? rest).map (ofParts negative whole fraction)

/-- The binary64 number that a text names. -/
def readFloat? (text : String) : Option Float :=
  let (negative, chars) := splitSign text.toList
  match String.ofList (chars.map Char.toLower) with
  | "inf" | "infinity" => some (if negative then -(1.0 / 0.0) else 1.0 / 0.0)
  | "nan" => some (0.0 / 0.0)
  | _ => (readDecimal? negative chars).map toFloat

end ProximitySearch.Decimal
