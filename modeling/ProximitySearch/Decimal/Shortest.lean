import ProximitySearch.Decimal

/-!
# Shortest decimals

`Decimal.shortest` finds the decimal with the fewest digits that reads back as a given binary64 number, and of those
the nearest one. Where two are equally near, the writer of a format chooses.
-/

namespace ProximitySearch

/-- Which of two equally near neighbours is taken. -/
inductive Tie where
  | away
  | toEven
deriving DecidableEq, Repr

namespace Decimal

/-- Magnitude of a finite number, as numerator and denominator. -/
def fraction (x : Float) : Nat × Nat :=
  let bits := x.toBits.toNat
  let biased := (bits >>> 52) % (1 <<< 11)
  let low := bits % (1 <<< 52)
  let significand := if biased = 0 then low else (1 <<< 52) + low
  let scale := max biased 1
  if 1075 ≤ scale then (significand <<< (scale - 1075), 1) else (significand, 1 <<< (1075 - scale))

/-- Whether the sign bit is set. -/
def signBit (x : Float) : Bool :=
  x.toBits.toNat >>> 63 = 1

/-- Power of ten of the leading digit of a positive fraction. -/
def leadingExponent (num den : Nat) : Int :=
  if den ≤ num then (Nat.toDigits 10 (num / den)).length - 1
  else -(Nat.toDigits 10 ((den - 1) / num)).length

/-- Whether `low + 1` is taken over `low`, where the number lies `num % den / den` above `low`. -/
def prefersHigh (tie : Tie) (num den low : Nat) : Bool :=
  match compare (2 * (num % den)) den with
  | .lt => false
  | .gt => true
  | .eq => tie == .away || low % 2 == 1

/-- A neighbour of `x` among the multiples of `10 ^ exponent` that reads back as `x`: the nearer one, if both do. -/
def onGrid (tie : Tie) (x : Float) (exponent : Int) : Option Decimal :=
  let (num, den) := fraction x
  let num := num * Nat.pow 10 (-exponent).toNat
  let den := den * Nat.pow 10 exponent.toNat
  let low : Decimal := ⟨signBit x, num / den, exponent⟩
  let high : Decimal := ⟨signBit x, num / den + 1, exponent⟩
  if low.toFloat = x then
    if high.toFloat = x then some (if prefersHigh tie num den low.digits then high else low)
    else some low
  else if high.toFloat = x then some high
  else none

/-- The value of a finite number itself. Every binary fraction is a decimal one. -/
def exact (x : Float) : Decimal :=
  let (num, den) := fraction x
  ⟨signBit x, num * Nat.pow 5 den.log2, -den.log2⟩

/-- The shortest decimal of a finite number. Seventeen digits are always enough. -/
def shortest (tie : Tie) (x : Float) : Decimal :=
  let (num, den) := fraction x
  if num = 0 then ⟨signBit x, 0, 0⟩
  else
    let leading := leadingExponent num den
    let found := (List.range 17).findSome? fun (n : Nat) => onGrid tie x (leading - n)
    trim (found.getD (exact x))

end Decimal

end ProximitySearch
