import ProximitySearch.Decimal.Shortest

/-!
# Literals and comparison operators

The leaves of a query, and how they are written. A number is written with the fewest digits that read back, without an
exponent, and of two equally near texts the one farther from zero.
-/

namespace ProximitySearch.Query

/-- How two operands are compared. -/
inductive CompareOp where
  | eq
  | ne
  | regexMatch
  | regexNotMatch
  | lt
  | le
  | gt
  | ge
deriving DecidableEq, Repr

/-- Spelling of an operator in a query. -/
def CompareOp.symbol : CompareOp → String
  | .eq => "=="
  | .ne => "!="
  | .regexMatch => "=~"
  | .regexNotMatch => "!~"
  | .lt => "<"
  | .le => "<="
  | .gt => ">"
  | .ge => ">="

/-- A constant in a query. -/
inductive Literal where
  | string (value : String)
  | number (value : Float)
  | boolean (value : Bool)
  | null
deriving DecidableEq

/-- Text of a number. -/
def numberText (x : Float) : String :=
  if x.isNaN then "NaN"
  else if x.isInf then if x < 0 then "-inf" else "inf"
  else String.ofList (Decimal.shortest .away x).positional

/-- Text of a truth value. -/
def booleanText (b : Bool) : String :=
  if b then "true" else "false"

namespace Literal

/-- The string of a string literal. -/
def asString? : Literal → Option String
  | .string s => some s
  | _ => none

theorem asString?_eq_some {value : Literal} {s : String} : value.asString? = some s ↔ value = .string s := by
  cases value <;> simp [asString?]

/-- The literal as a message shows it, with its type. -/
def text : Literal → String
  | .string s => s!"string '{s}'"
  | .number x => s!"number {numberText x}"
  | .boolean b => s!"boolean {booleanText b}"
  | .null => "null"

end Literal

end ProximitySearch.Query
