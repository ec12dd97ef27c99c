import ProximitySearch.Decimal.Shortest
import ProximitySearch.Json.Reader

/-!
# Numbers in JSON

Writing a number takes the shortest digits that read back, a tie going to the even digit. Reading takes the first
digits that fit in 64 bits and scales them by powers of ten in binary64, so digits in excess are ignored and the last
bit may differ from the nearest number.
-/

namespace ProximitySearch.Json

/-- Largest value of 64 bits. -/
def maxWord : Nat := UInt64.size - 1

/-- Largest exponent that is read as a number; a larger one gives zero or nothing. -/
def maxExponent : Int := Int32.maxValue.toInt

/-- Digits taken from the left as long as they fit in 64 bits, and how many are left over. -/
def takeDigits (significand : Nat) : List Char → Nat × Nat
  | [] => (significand, 0)
  | c :: rest =>
    let next := 10 * significand + (c.toNat - '0'.toNat)
    if maxWord < next then (significand, rest.length + 1) else takeDigits next rest

/-- A number scaled by a power of ten, by one factor of at most `10 ^ 308` after the other. Nothing, if it grows too
large. -/
def scale? (x : Float) (exponent : Int) : Option Float :=
  if exponent.natAbs ≤ 308 then
    let power := Float.ofScientific 1 false exponent.natAbs
    if 0 ≤ exponent then
      if (x * power).isInf then none else some (x * power)
    else some (x / power)
  else if x == 0 then some x
  else if 0 ≤ exponent then none
  else scale? (x / Float.ofScientific 1 false 308) (exponent + 308)
termination_by exponent.natAbs
decreasing_by omega

namespace Numeral

/-- Sign put in front of a magnitude. -/
def signed (n : Numeral) (magnitude : Float) : Float :=
  if n.negative then -magnitude else magnitude

/-- The binary64 number that is read. -/
def toFloat? (n : Numeral) : Option Float :=
  let (significand, excess) := takeDigits 0 n.whole
  let (significand, ignored) := takeDigits significand n.fraction
  let base : Int := excess - (n.fraction.length - ignored : Nat)
  let exponent := n.exponent.getD 0
  if maxExponent < exponent.natAbs then
    if significand ≠ 0 ∧ 0 < exponent then none else some (n.signed 0)
  else (scale? significand.toUInt64.toFloat (base + exponent)).map n.signed

/-- The natural number below `2 ^ 64` that is written, without a sign, a point or an exponent. -/
def toWord? (n : Numeral) : Option Nat :=
  let value := Reader.natOfDigits n.whole
  if n.negative || !n.fraction.isEmpty || n.exponent.isSome || maxWord < value then none else some value

/-- Numeral of a natural number. -/
def ofNat (value : Nat) : Numeral := ⟨false, Nat.toDigits 10 value, [], none⟩

/-- Numeral of a decimal. It is positional where the leading digit stands for `10 ^ -5` to `10 ^ 15`, and then has at
least one digit after the point. -/
def ofDecimal (d : Decimal) : Numeral :=
  let digits := d.digitChars
  let leading : Int := d.exponent + digits.length - 1
  if -5 ≤ leading ∧ leading ≤ 15 then
    if 0 ≤ d.exponent then ⟨d.negative, digits ++ List.replicate d.exponent.toNat '0', ['0'], none⟩
    else if 0 ≤ leading then
      ⟨d.negative, digits.take (leading.toNat + 1), digits.drop (leading.toNat + 1), none⟩
    else ⟨d.negative, ['0'], List.replicate (-leading - 1).toNat '0' ++ digits, none⟩
  else ⟨d.negative, digits.take 1, digits.drop 1, some leading⟩

end Numeral

/-- Value of a number; what is not finite has none but null. -/
def Value.ofFloat (x : Float) : Value :=
  if x.isFinite then .number (.ofDecimal (Decimal.shortest .toEven x)) else .null

end ProximitySearch.Json
