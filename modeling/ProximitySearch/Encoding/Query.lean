import ProximitySearch.Json.Codec
import ProximitySearch.Query.Tree

/-!
# Encodings of query trees
-/

namespace ProximitySearch.Query

open Json Json.Codec

/-- Name of an operator in an encoding. -/
def CompareOp.tag : CompareOp → String
  | .eq => "Eq"
  | .ne => "Ne"
  | .regexMatch => "RegexMatch"
  | .regexNotMatch => "RegexNotMatch"
  | .lt => "Lt"
  | .le => "Le"
  | .gt => "Gt"
  | .ge => "Ge"

/-- The operator with a name. -/
def CompareOp.ofTag? : String → Option CompareOp
  | "Eq" => some .eq
  | "Ne" => some .ne
  | "RegexMatch" => some .regexMatch
  | "RegexNotMatch" => some .regexNotMatch
  | "Lt" => some .lt
  | "Le" => some .le
  | "Gt" => some .gt
  | "Ge" => some .ge
  | _ => none

instance : Codec CompareOp where
  encode op := .ofText op.tag
  decode? v := plainVariant? v >>= CompareOp.ofTag?

instance : Codec Literal where
  encode
    | .string s => .ofVariant "String" (encode s)
    | .number x => .ofVariant "Number" (encode x)
    | .boolean b => .ofVariant "Boolean" (encode b)
    | .null => .ofText "Null"
  decode? v :=
    match variant? v with
    | some ("String", some content) => .string <$> decode? content
    | some ("Number", some content) => .number <$> decode? content
    | some ("Boolean", some content) => .boolean <$> decode? content
    | some ("Null", none) => some .null
    | some ("Null", some .null) => some .null
    | _ => none

instance : Codec NodeKind where
  encode
    | .script => .ofText "Script"
    | .and => .ofText "And"
    | .or => .ofText "Or"
    | .not => .ofText "Not"
    | .delayed => .ofText "Delayed"
    | .function space name =>
      .ofVariant "Function" (.ofFields [("namespace", encode space), ("name", encode name)])
    | .comparison op => .ofVariant "Comparison" (encode op)
    | .identifier name => .ofVariant "Identifier" (encode name)
    | .literal value => .ofVariant "Literal" (encode value)
  decode? v :=
    match plainVariant? v with
    | some "Script" => some .script
    | some "And" => some .and
    | some "Or" => some .or
    | some "Not" => some .not
    | some "Delayed" => some .delayed
    | _ =>
      match variant? v with
      | some ("Function", some content) => do
        let [space, name] ← slots? ["namespace", "name"] content | none
        return .function (← space.required) (← name.required)
      | some ("Comparison", some content) => .comparison <$> decode? content
      | some ("Identifier", some content) => .identifier <$> decode? content
      | some ("Literal", some content) => .literal <$> decode? content
      | _ => none

instance : Codec Node where
  encode n := .ofFields
    [("kind", encode n.kind), ("parent", encode n.parent), ("children", encode n.children)]
  decode? v := do
    let [kind, parent, children] ← slots? ["kind", "parent", "children"] v | none
    return ⟨← kind.required, ← parent.optional, ← children.required⟩

instance : Codec Tree where
  encode t := .ofFields [("nodes", encode t.nodes)]
  decode? v := do
    let [nodes] ← slots? ["nodes"] v | none
    return ⟨← nodes.required⟩

end ProximitySearch.Query
