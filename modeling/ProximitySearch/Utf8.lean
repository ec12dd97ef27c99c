import ProximitySearch.Bytes

/-!
# UTF-8

* `encode` writes a text as octets; `decode` reads it back or says where and how the octets go wrong.
* `lossy` reads any octets, with one replacement character for each maximal part that is not UTF-8.
* `pieces` is what both readers share: the octets cut into code points and broken parts.
-/

namespace ProximitySearch.Utf8

/-- Octets of a text. -/
def encode (text : String) : Bytes :=
  text.toList.flatMap String.utf8EncodeChar

theorem toByteArray_encode (text : String) : (encode text).toByteArray = text.toByteArray := by
  rw [← String.ofList_toList (s := text), String.toByteArray_ofList]
  simp [encode, List.utf8Encode]

theorem encode_inj {s t : String} : encode s = encode t ↔ s = t := by
  refine ⟨fun h => ?_, fun h => h ▸ rfl⟩
  rw [← String.toByteArray_inj, ← toByteArray_encode, h, toByteArray_encode]

/-! ## Broken parts -/

/-- What a leading octet above 127 announces: the length of the sequence, and the octets that may come second. -/
structure Lead where
  length : Nat
  low : UInt8
  high : UInt8

/-- The table of well-formed sequences, by leading octet. The narrowed ranges keep out overlong forms (after E0
and F0), surrogates (after ED) and values past the last code point (after F4). -/
def lead? (b : UInt8) : Option Lead :=
  if 0xC2 ≤ b ∧ b ≤ 0xDF then some ⟨2, 0x80, 0xBF⟩
  else if b = 0xE0 then some ⟨3, 0xA0, 0xBF⟩
  else if b = 0xED then some ⟨3, 0x80, 0x9F⟩
  else if 0xE1 ≤ b ∧ b ≤ 0xEF then some ⟨3, 0x80, 0xBF⟩
  else if b = 0xF0 then some ⟨4, 0x90, 0xBF⟩
  else if 0xF1 ≤ b ∧ b ≤ 0xF3 then some ⟨4, 0x80, 0xBF⟩
  else if b = 0xF4 then some ⟨4, 0x80, 0x8F⟩
  else none

/-- Octets of `rest` that continue the sequence which `lead` opens. -/
def continuation (lead : Lead) : Bytes → Bytes
  | [] => []
  | b :: rest =>
    if lead.low ≤ b ∧ b ≤ lead.high then
      b :: (rest.take (lead.length - 2)).takeWhile fun c => 0x80 ≤ c && c ≤ 0xBF
    else []

/-- First part of a byte string: a code point, a part that no octet could complete where it stands, or the start of
a sequence that the string ends in. -/
inductive Piece where
  | char (c : Char)
  | invalid (length : Nat)
  | cutOff (length : Nat)

/-- Number of octets a piece takes. -/
def Piece.length : Piece → Nat
  | .char c => c.utf8Size
  | .invalid n => n
  | .cutOff n => n

/-- The code point that a byte string starts with. -/
def char? (b : Bytes) : Option Char :=
  (b.take 4).toByteArray.utf8DecodeChar? 0

/-- The first piece of a byte string whose first octet is `b`. -/
def firstPiece (b : UInt8) (rest : Bytes) : Piece :=
  match char? (b :: rest) with
  | some c => .char c
  | none =>
    match lead? b with
    | none => .invalid 1
    | some lead =>
      let part := continuation lead rest
      if part.length = rest.length then .cutOff (part.length + 1) else .invalid (part.length + 1)

/-- A byte string cut into its pieces. -/
def pieces : Bytes → List Piece
  | [] => []
  | b :: rest =>
    let piece := firstPiece b rest
    piece :: pieces (rest.drop (piece.length - 1))
termination_by b => b.length
decreasing_by simp only [List.length_drop, List.length_cons]; omega

/-! ## Reading -/

/-- How octets fail to be UTF-8, with the index of the first octet of the broken part. -/
inductive Fault where
  | invalid (length index : Nat)
  | cutOff (index : Nat)
deriving DecidableEq, Repr

/-- Wording of a fault. -/
def Fault.message : Fault → String
  | .invalid length index => s!"invalid utf-8 sequence of {length} bytes from index {index}"
  | .cutOff index => s!"incomplete utf-8 byte sequence from index {index}"

/-- Code points of pieces that start at `index`, or the first fault among them. -/
def chars (index : Nat) : List Piece → Except Fault (List Char)
  | [] => .ok []
  | .char c :: rest => (c :: ·) <$> chars (index + c.utf8Size) rest
  | .invalid n :: _ => .error (.invalid n index)
  | .cutOff _ :: _ => .error (.cutOff index)

/-- The text that octets encode. -/
def decode (b : Bytes) : Except Fault String :=
  String.ofList <$> chars 0 (pieces b)

/-- The text of octets that need not be UTF-8: one replacement character stands for each broken piece. -/
def lossy (b : Bytes) : String :=
  String.ofList <| (pieces b).map fun
    | .char c => c
    | _ => '\uFFFD'

/-- The lossy text with NUL made visible, for messages. -/
def printable (b : Bytes) : String :=
  String.ofList <| (lossy b).toList.flatMap fun c => if c = '\x00' then "\\x00".toList else [c]

end ProximitySearch.Utf8
