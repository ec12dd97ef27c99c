/-!
# Decimal numbers

A decimal number is a natural number of digits with a sign and a power of ten. `toFloat` is the binary64 number nearest
to it.
-/

namespace ProximitySearch

/-- The number `± digits * 10 ^ exponent`. -/
structure Decimal where
  negative : Bool
  digits : Nat
  exponent : Int
deriving DecidableEq, Repr

namespace Decimal

/-- The nearest binary64 number; an infinity past the largest. -/
def toFloat (d : Decimal) : Float :=
  let magnitude := Float.ofScientific d.digits (d.exponent < 0) d.exponent.natAbs
  if d.negative then -magnitude else magnitude

/-- The same number without trailing zeros among its digits; zero gets exponent zero. -/
def trim (d : Decimal) : Decimal :=
  if d.digits = 0 then { d with exponent := 0 }
  else if d.digits % 10 = 0 then trim { d with digits := d.digits / 10, exponent := d.exponent + 1 }
  else d
termination_by d.digits
decreasing_by omega

/-- Value of digit characters read from the left. -/
def ofDigits (chars : List Char) : Nat :=
  chars.foldl (fun n c => 10 * n + (c.toNat - '0'.toNat)) 0

/-- The number written as `whole.fraction`, times a power of ten. -/
def ofParts (negative : Bool) (whole fraction : List Char) (exponent : Int) : Decimal :=
  trim ⟨negative, ofDigits (whole ++ fraction), exponent - fraction.length⟩

/-- Digit characters of a number's digits. -/
def digitChars (d : Decimal) : List Char :=
  Nat.toDigits 10 d.digits

/-- Sign character, if the number has one. -/
def signChars (d : Decimal) : List Char :=
  if d.negative then ['-'] else []

/-- Text without an exponent. A point is written only where there are decimals. -/
def positional (d : Decimal) : List Char :=
  let digits := d.digitChars
  let places := d.exponent.natAbs
  d.signChars ++
    if 0 ≤ d.exponent then digits ++ List.replicate places '0'
    else if places < digits.length then
      digits.take (digits.length - places) ++ '.' :: digits.drop (digits.length - places)
    else '0' :: '.' :: (List.replicate (places - digits.length) '0' ++ digits)

end Decimal

end ProximitySearch
