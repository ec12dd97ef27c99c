import Mathlib.Tactic.Common
import ProximitySearch.Utf8

/-!
# Encoding and decoding

`decode` reads exactly the octets that `encode` writes (`decode_eq_ok_iff`). No octet of a text is zero but
those of its NUL characters, and no encoded character starts another, so a text whose octets start with
those of another text starts with that text (`prefix_of_encode_prefix`).
-/

namespace ProximitySearch.Utf8

open String (utf8EncodeChar)

/-! ## Characters -/

theorem char?_encode_append (c : Char) (rest : Bytes) : char? (utf8EncodeChar c ++ rest) = some c := by
  have hlen : (utf8EncodeChar c).length ≤ 4 := by
    rw [String.length_utf8EncodeChar]
    exact c.utf8Size_le_four
  rw [char?, List.take_append, List.take_of_length_le hlen, List.toByteArray_append]
  exact ByteArray.utf8DecodeChar?_utf8EncodeChar_append

theorem exists_append_of_char? {b : Bytes} {c : Char} (h : char? b = some c) :
    ∃ rest, b = utf8EncodeChar c ++ rest := by
  obtain ⟨after, hafter⟩ := ByteArray.exists_of_utf8DecodeChar?_eq_some h
  have hlist := congrArg (fun a : ByteArray => a.data.toList) hafter
  simp only [ByteArray.data_append, Array.toList_append, List.data_toByteArray] at hlist
  refine ⟨after.data.toList ++ b.drop 4, ?_⟩
  conv_lhs => rw [← List.take_append_drop 4 b]
  rw [← List.append_assoc]
  congr 1

theorem utf8EncodeChar_append_inj {c d : Char} {s t : Bytes} (h : utf8EncodeChar c ++ s = utf8EncodeChar d ++ t) :
    c = d ∧ s = t := by
  have hc := char?_encode_append c s
  rw [h, char?_encode_append] at hc
  obtain rfl := Option.some.inj hc
  exact ⟨rfl, List.append_cancel_left h⟩

theorem zero_eq_ofNat (n : Nat) : (0 : UInt8) = UInt8.ofNat n ↔ n % 256 = 0 := by
  rw [← UInt8.toNat_inj, UInt8.toNat_ofNat, eq_comm]
  rfl

theorem zero_mem_utf8EncodeChar (c : Char) : (0 : UInt8) ∈ utf8EncodeChar c ↔ c = '\x00' := by
  constructor
  · intro h
    have hc : c.val.toNat = 0 := by
      unfold utf8EncodeChar at h
      dsimp only at h
      split_ifs at h <;> simp only [List.mem_cons, List.not_mem_nil, or_false, zero_eq_ofNat] at h <;> omega
    exact Char.ext (UInt32.toNat_inj.mp hc)
  · rintro rfl
    decide

/-! ## Texts -/

theorem encode_ofList (l : List Char) : encode (String.ofList l) = l.flatMap utf8EncodeChar := by
  simp [encode]

theorem encode_append (s t : String) : encode (s ++ t) = encode s ++ encode t := by
  simp [encode]

theorem zero_mem_encode (s : String) : (0 : UInt8) ∈ encode s ↔ '\x00' ∈ s.toList := by
  simp [encode, zero_mem_utf8EncodeChar]

theorem pieces_encode_append (c : Char) (rest : Bytes) :
    pieces (utf8EncodeChar c ++ rest) = .char c :: pieces rest := by
  obtain ⟨b, tail, hcons⟩ := List.exists_cons_of_ne_nil (String.utf8EncodeChar_ne_nil (c := c))
  have hfirst : firstPiece b (tail ++ rest) = .char c := by
    have hchar := char?_encode_append c rest
    rw [hcons, List.cons_append] at hchar
    simp only [firstPiece, hchar]
  have hlen : tail.length = c.utf8Size - 1 := by
    have := String.length_utf8EncodeChar c
    rw [hcons, List.length_cons] at this
    omega
  rw [hcons, List.cons_append, pieces]
  simp only [hfirst, Piece.length, ← hlen, List.drop_left]

theorem chars_pieces_flatMap (index : Nat) (l : List Char) :
    chars index (pieces (l.flatMap utf8EncodeChar)) = .ok l := by
  induction l generalizing index with
  | nil => rw [List.flatMap_nil, pieces, chars]
  | cons c l ih =>
    rw [List.flatMap_cons, pieces_encode_append, chars, ih]
    rfl

theorem eq_flatMap_of_chars {index : Nat} {b : Bytes} {l : List Char} (h : chars index (pieces b) = .ok l) :
    b = l.flatMap utf8EncodeChar := by
  induction hn : b.length using Nat.strongRecOn generalizing b l index with
  | _ n ih =>
  cases b with
  | nil =>
    rw [pieces, chars] at h
    obtain rfl := Except.ok.inj h
    rfl
  | cons b rest =>
    cases hchar : char? (b :: rest) with
    | none =>
      rw [pieces] at h
      simp only [firstPiece, hchar] at h
      split at h
      · simp [chars] at h
      · split at h <;> simp [chars] at h
    | some c =>
      obtain ⟨after, hafter⟩ := exists_append_of_char? hchar
      rw [hafter, pieces_encode_append, chars] at h
      have hlt : after.length < n := by
        have hlen := congrArg List.length hafter
        have := c.utf8Size_pos
        rw [List.length_append, String.length_utf8EncodeChar] at hlen
        omega
      cases hrec : chars (index + c.utf8Size) (pieces after) with
      | error e => simp [hrec, Functor.map, Except.map] at h
      | ok l' =>
        rw [hrec] at h
        obtain rfl := Except.ok.inj h
        rw [hafter, ih _ hlt hrec rfl, List.flatMap_cons]

@[simp] theorem decode_encode (s : String) : decode (encode s) = .ok s := by
  rw [decode, encode, chars_pieces_flatMap]
  simp [Functor.map, Except.map]

theorem decode_eq_ok_iff {b : Bytes} {s : String} : decode b = .ok s ↔ b = encode s := by
  constructor
  · intro h
    rw [decode] at h
    cases hrec : chars 0 (pieces b) with
    | error e => simp [hrec, Functor.map, Except.map] at h
    | ok l =>
      rw [hrec] at h
      obtain rfl := Except.ok.inj h
      rw [encode_ofList]
      exact eq_flatMap_of_chars hrec
  · rintro rfl
    exact decode_encode s

theorem prefix_of_flatMap_prefix {l m : List Char} (h : l.flatMap utf8EncodeChar <+: m.flatMap utf8EncodeChar) :
    l <+: m := by
  induction l generalizing m with
  | nil => exact List.nil_prefix
  | cons c l ih =>
    obtain ⟨rest, hrest⟩ := h
    cases m with
    | nil => simp [String.utf8EncodeChar_ne_nil] at hrest
    | cons d m =>
      rw [List.flatMap_cons, List.flatMap_cons, List.append_assoc] at hrest
      obtain ⟨rfl, htail⟩ := utf8EncodeChar_append_inj hrest
      exact (List.prefix_cons_inj c).mpr (ih ⟨rest, htail⟩)

theorem prefix_of_encode_prefix {s t : String} (h : encode s <+: encode t) : s.toList <+: t.toList :=
  prefix_of_flatMap_prefix h

end ProximitySearch.Utf8
