/-!
# Quoted strings

Between quotes a backslash takes the next character with it, so an escaped quote does not end the string. `scanBody`
finds the closing quote and `unescape` then says what the body means; `escape` writes a text so that both give it back.
-/

namespace ProximitySearch.Query

/-- The body of a string up to its closing quote, and what follows the quote. -/
def scanBody (quote : Char) : List Char → Option (List Char × List Char)
  | [] => none
  | c :: rest =>
    if c = '\\' then
      match rest with
      | [] => none
      | d :: rest => (scanBody quote rest).map fun (body, rest) => (c :: d :: body, rest)
    else if c = quote then some ([], rest)
    else (scanBody quote rest).map fun (body, rest) => (c :: body, rest)

/-- What an escaped character stands for. -/
def escapedChar : Char → Char
  | 'n' => '\n'
  | 't' => '\t'
  | 'r' => '\r'
  | '0' => '\x00'
  | c => c

/-- The text that a body stands for. A backslash that ends the body stands for itself. -/
def unescape : List Char → List Char
  | [] => []
  | ['\\'] => ['\\']
  | c :: rest =>
    if c = '\\' then
      match rest with
      | [] => [c]
      | d :: rest => escapedChar d :: unescape rest
    else c :: unescape rest

/-- A body that stands for a text: backslashes and quotes get a backslash in front. -/
def escape (quote : Char) (text : List Char) : List Char :=
  text.flatMap fun c => if c = '\\' ∨ c = quote then ['\\', c] else [c]

end ProximitySearch.Query
