import ProximitySearch.Config
import ProximitySearch.Proximity.Function
import ProximitySearch.Query
import ProximitySearch.Sorted.Map

/-!
# Function calls

The proximity functions that a query tree calls. A call names its field first, unless its first argument shows that it
left the field out: then the fields are those in which a table of known values has one of its terms.
-/

namespace ProximitySearch.Proximity

open Query (Tree Literal)

/-- Known values by field, for calls that leave the field out. -/
abbrev FieldValues := SortedMap String (SortedSet String)

/-- Fields with one of the values. -/
def FieldValues.fieldsHolding (known : FieldValues) (values : SortedSet String) : SortedSet String :=
  .ofList <| known.toList.filterMap fun (field, held) =>
    if values.toList.any (· ∈ held) then some field else none

/-- Whether a first argument shows that the field was left out: it is a distance, or the placeholder for offsets. -/
def isFieldOmitted (config : FunctionConfig) (tree : Tree) (first : Nat) : Bool :=
  match tree.kind? first with
  | some (.literal (.number _)) => true
  | some (.identifier name) => name == config.offsetPlaceholder
  | _ => false

/-- The strings among the literals of term arguments, which may hold no others. -/
def termValues (kind : Kind) (literals : List Literal) : Except SearchError (List String) :=
  literals.mapM fun literal =>
    match literal.asString? with
    | some value => .ok value
    | none => .error (.unsupportedLiteral kind.name literal.text)

/-- Descriptor of the call at a node. -/
def readCall (config : FunctionConfig) (known : FieldValues) (tree : Tree) (id : Nat) (kind : Kind) :
    Except SearchError Descriptor :=
  match tree.children id with
  | [] => .error (.malformedQuery (.noArguments kind.name))
  | first :: others => do
    let omitted := isFieldOmitted config tree first
    let offset := if omitted then kind.valueOffset - 1 else kind.valueOffset
    let terms := (first :: others).drop offset
    let values := SortedSet.ofList (← termValues kind (terms.flatMap tree.literalsIn))
    if values.isEmpty then throw (.malformedQuery (.noTermValues kind.name))
    let fields :=
      if omitted then known.fieldsHolding values else .ofList (tree.identifiersIn first)
    if !omitted && fields.isEmpty then throw (.malformedQuery (.noField kind.name))
    return { kind, negated := tree.isNegated id, fields, values }

/-- Descriptors of the calls in a tree, in order of creation. -/
def readCalls (config : FunctionConfig) (known : FieldValues) (tree : Tree) :
    Except SearchError (List Descriptor) :=
  let calls := (tree.functions config.namespaceName).filterMap fun (id, name) =>
    (Kind.ofName? name).map fun kind => (id, kind)
  calls.mapM fun (id, kind) => readCall config known tree id kind

/-- The space of the calls in a tree. -/
def Space.ofTree (config : FunctionConfig) (known : FieldValues) (tree : Tree) : Except SearchError Space :=
  Space.ofDescriptors <$> readCalls config known tree

end ProximitySearch.Proximity
