import ProximitySearch.Query.Expr
import ProximitySearch.Query.Token

/-!
# Parsing

Expressions from tokens. From weakest to strongest: `||`, `&&`, `!`, and then primaries, which are

* a marked expression, `((_Delayed_ = true) && (…))`;
* an expression in parentheses;
* an operand, or two operands compared, where an operand is a function call, a literal or an identifier.

A parser reads from the front of the tokens and gives back the rest.
-/

namespace ProximitySearch.Query

/-- A reader of something at the front of tokens. -/
abbrev Parser (α : Type) := List Token → Option (α × List Token)

namespace Parser

/-- A token that must come next. -/
def expect (t : Token) : Parser Unit
  | u :: rest => if u = t then some ((), rest) else none
  | [] => none

/-- One item, and more after separators, up to `count` in all. -/
def sepBy {α : Type} (separator : Token) (item : Parser α) : (count : Nat) → Parser (List α)
  | 0, _ => none
  | count + 1, tokens => do
    let (first, rest) ← item tokens
    match rest with
    | t :: more =>
      if t = separator then do
        let (others, rest) ← sepBy separator item count more
        return (first :: others, rest)
      else return ([first], rest)
    | [] => return ([first], [])

/-- What follows the marker of a delayed expression, `((_Delayed_ = true) &&`. The sign may be doubled. -/
def afterMarker? : List Token → Option (List Token)
  | .leftParen :: .leftParen :: .identifier "_Delayed_" :: .assign :: .assign ::
      .identifier "true" :: .rightParen :: .and :: rest => some rest
  | .leftParen :: .leftParen :: .identifier "_Delayed_" :: .assign ::
      .identifier "true" :: .rightParen :: .and :: rest => some rest
  | .leftParen :: .leftParen :: .identifier "_Delayed_" :: .compare .eq ::
      .identifier "true" :: .rightParen :: .and :: rest => some rest
  | _ => none

/-- A function call, a literal or an identifier. -/
def operand (expr : Parser Expr) (count : Nat) : Parser Expr
  | .identifier space :: .colon :: .identifier name :: .leftParen :: .rightParen :: rest =>
    some (.function space name [], rest)
  | .identifier space :: .colon :: .identifier name :: .leftParen :: rest => do
    let (arguments, rest) ← sepBy .comma expr count rest
    let ((), rest) ← expect .rightParen rest
    return (.function space name arguments, rest)
  | .identifier name :: rest => some (.ofWord name, rest)
  | .number x :: rest => some (.literal (.number x), rest)
  | .string s :: rest => some (.literal (.string s), rest)
  | _ => none

/-- An operand, or a comparison of two. -/
def comparison (expr : Parser Expr) (count : Nat) : Parser Expr := fun tokens => do
  let (left, rest) ← operand expr count tokens
  match rest with
  | .compare op :: rest => do
    let (right, rest) ← operand expr count rest
    return (.comparison op left right, rest)
  | _ => return (left, rest)

/-- An expression that no operator splits. -/
def primary (expr : Parser Expr) (count : Nat) : Parser Expr := fun tokens =>
  match afterMarker? tokens with
  | some rest => do
    let (e, rest) ← expr rest
    let ((), rest) ← expect .rightParen rest
    return (.delayed e, rest)
  | none =>
    match tokens with
    | .leftParen :: rest => do
      let (e, rest) ← expr rest
      let ((), rest) ← expect .rightParen rest
      return (e, rest)
    | _ => comparison expr count tokens

/-- A primary under any number of negations. -/
def unary (expr : Parser Expr) (count : Nat) : Parser Expr
  | .not :: rest => (unary expr count rest).map fun (e, rest) => (.not e, rest)
  | tokens => primary expr count tokens

/-- Operands of `&&`. -/
def conjunction (expr : Parser Expr) (count : Nat) : Parser Expr := fun tokens =>
  (sepBy .and (unary expr count) count tokens).map fun (operands, rest) => (.conjunction operands, rest)

/-- Operands of `||`. -/
def disjunction (expr : Parser Expr) (count : Nat) : Parser Expr := fun tokens =>
  (sepBy .or (conjunction expr count) count tokens).map fun (operands, rest) => (.disjunction operands, rest)

/-- An expression whose parentheses nest less than `depth` deep and whose lists are no longer than `depth`. -/
def expr : (depth : Nat) → Parser Expr
  | 0 => fun _ => none
  | depth + 1 => disjunction (expr depth) depth

end Parser

/-- The expression of a query text. Neither nesting nor a list can be longer than the tokens are. -/
def Expr.parse? (text : String) : Option Expr := do
  let tokens ← tokenize text.toList
  match Parser.expr (tokens.length + 1) tokens with
  | some (e, []) => some e
  | _ => none

end ProximitySearch.Query
