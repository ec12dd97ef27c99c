import ProximitySearch.Json.Number
import ProximitySearch.Sorted.Map
import ProximitySearch.Sorted.Set

/-!
# Encodings

A codec writes a type as values and reads it back. This module has those of numbers, texts, lists, sets and maps, and
what the codecs of structures and of alternatives share:

* a structure is an object with its fields as members, and may also be given as an array of all its fields. Members
  with other names are ignored, but one of a field must not be repeated;
* an alternative is its name, or an object with the name as the only key and the content under it.
-/

namespace ProximitySearch.Json

/-- An encoding of a type. -/
class Codec (α : Type) where
  encode : α → Value
  decode? : Value → Option α

open Codec

/-- Text of a value of an encoded type. -/
def write {α : Type} [Codec α] (a : α) : String := (encode a).text

/-- The value of an encoded type that a text writes. -/
def read? {α : Type} [Codec α] (text : String) : Option α := Value.read? text >>= decode?

/-! ## Texts and numbers -/

/-- Value of a text. -/
def Value.ofText (text : String) : Value := .string (escape text.toList)

/-- The text of a string. -/
def textOf? (body : List Char) : Option String := (unescape? body).map String.ofList

instance : Codec String where
  encode := .ofText
  decode?
    | .string body => textOf? body
    | _ => none

instance : Codec Bool where
  encode := .boolean
  decode?
    | .boolean b => some b
    | _ => none

instance : Codec Nat where
  encode n := .number (.ofNat n)
  decode?
    | .number n => n.toWord?
    | _ => none

instance : Codec UInt8 where
  encode b := .number (.ofNat b.toNat)
  decode?
    | .number n => n.toWord?.bind fun value => if value < 256 then some value.toUInt8 else none
    | _ => none

instance : Codec Float where
  encode := .ofFloat
  decode?
    | .number n => n.toFloat?
    | _ => none

/-! ## Collections -/

instance {α : Type} [Codec α] : Codec (Option α) where
  encode
    | none => .null
    | some a => encode a
  decode?
    | .null => some none
    | v => some <$> decode? v

instance {α : Type} [Codec α] : Codec (List α) where
  encode l := .array (l.map encode)
  decode?
    | .array items => items.mapM decode?
    | _ => none

instance {α : Type} [Ord α] [Std.TransOrd α] [Codec α] : Codec (SortedSet α) where
  encode s := encode s.toList
  decode? v := (decode? v).map SortedSet.ofList

/-- Members of an object with their keys read. -/
def keyed? (members : List (List Char × Value)) : Option (List (String × Value)) :=
  members.mapM fun (key, v) => (textOf? key).map fun key => (key, v)

instance {β : Type} [Codec β] : Codec (SortedMap String β) where
  encode m := .object (m.toList.map fun (key, b) => (escape key.toList, encode b))
  decode?
    | .object members => do
      let members ← keyed? members
      SortedMap.ofList <$> members.mapM fun (key, v) => (decode? v).map fun b => (key, b)
    | _ => none

/-! ## Structures -/

/-- What a structure's text has for a field. -/
inductive Slot where
  | given (value : Value)
  | absent
  | pastEnd

namespace Slot

/-- A field that must be given. -/
def required {α : Type} [Codec α] : Slot → Option α
  | .given v => decode? v
  | _ => none

/-- A field that an object may leave out. -/
def optional {α : Type} [Codec α] : Slot → Option (Option α)
  | .given v => decode? v
  | .absent => some none
  | .pastEnd => none

/-- A field with a default. -/
def orElse {α : Type} [Codec α] (default : α) : Slot → Option α
  | .given v => decode? v
  | _ => some default

end Slot

/-- What a value has for the fields of a structure, in the order of their names. -/
def slots? (names : List String) : Value → Option (List Slot)
  | .array items =>
    if items.length ≤ names.length then
      some (items.map .given ++ List.replicate (names.length - items.length) .pastEnd)
    else none
  | .object members => do
    let members ← keyed? members
    names.mapM fun name =>
      match members.filter fun member => member.1 == name with
      | [] => some .absent
      | [(_, v)] => some (.given v)
      | _ => none
  | _ => none

/-- Value of a structure, from names and values of its fields. -/
def Value.ofFields (fields : List (String × Value)) : Value :=
  .object (fields.map fun (name, v) => (escape name.toList, v))

/-! ## Alternatives -/

/-- Name of an alternative, and its content if it is given any. -/
def variant? : Value → Option (String × Option Value)
  | .string body => (textOf? body).map fun name => (name, none)
  | .object [(key, v)] => (textOf? key).map fun name => (name, some v)
  | _ => none

/-- Value of an alternative with content. -/
def Value.ofVariant (name : String) (content : Value) : Value :=
  .ofFields [(name, content)]

/-- An alternative without content, by its name alone or with null. -/
def plainVariant? (v : Value) : Option String :=
  match variant? v with
  | some (name, none) => some name
  | some (name, some .null) => some name
  | _ => none

end ProximitySearch.Json
