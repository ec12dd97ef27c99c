import Mathlib.Tactic.Common
import ProximitySearch.Decimal.Reader
import ProximitySearch.Query.Token

/-!
# Texts of numbers

The text of a finite number is a sign, digits, and perhaps decimals after a point (`exists_numberText`). A
scanner and a reader both read such a text through the same decimal number (`scanNumber_magnitude`,
`readFloat?_chars`), so what one of them reads back the other does too.
-/

namespace ProximitySearch

/-- A number as it is written without an exponent. -/
structure NumberParts where
  negative : Bool
  whole : List Char
  fraction : List Char

namespace NumberParts

/-- The point and the decimals, if there are any. -/
def decimals (p : NumberParts) : List Char :=
  if p.fraction.isEmpty then [] else '.' :: p.fraction

/-- The text without the sign. -/
def magnitude (p : NumberParts) : List Char :=
  p.whole ++ p.decimals

/-- The text. -/
def chars (p : NumberParts) : List Char :=
  (if p.negative then ['-'] else []) ++ p.magnitude

/-- The number that the text stands for. -/
def toFloat (p : NumberParts) : Float :=
  (Decimal.ofParts p.negative p.whole p.fraction 0).toFloat

/-- Digits on both sides of the point, at least one before it. -/
structure Valid (p : NumberParts) : Prop where
  whole_ne_nil : p.whole ≠ []
  isDigit_whole : ∀ c ∈ p.whole, c.isDigit = true
  isDigit_fraction : ∀ c ∈ p.fraction, c.isDigit = true

end NumberParts

/-! ## Digits and what follows -/

theorem span_append {α : Type} {p : α → Bool} {l rest : List α} (hl : ∀ a ∈ l, p a = true)
    (hrest : ∀ a ∈ rest.head?, p a = false) :
    (l ++ rest).takeWhile p = l ∧ (l ++ rest).dropWhile p = rest := by
  have hstop : rest.takeWhile p = [] ∧ rest.dropWhile p = rest := by
    cases rest with
    | nil => exact ⟨rfl, rfl⟩
    | cons a rest =>
      have ha : p a = false := hrest a rfl
      simp [ha]
  rw [List.takeWhile_append_of_pos hl, List.dropWhile_append_of_pos hl, hstop.1, hstop.2]
  simp

namespace Query

theorem isIdentifierChar_of_isDigit {c : Char} (h : c.isDigit = true) : isIdentifierChar c = true := by
  simp [isIdentifierChar, Char.isAlphanum, h]

section Scan

variable {p : NumberParts} (hp : p.Valid) {rest : List Char} (hrest : ∀ c ∈ rest.head?, isIdentifierChar c = false)
include hp hrest

omit hp in
theorem head_not_isDigit : ∀ c ∈ rest.head?, c.isDigit = false := by
  intro c hc
  by_contra hdigit
  have hident := isIdentifierChar_of_isDigit (Bool.not_eq_false _ ▸ hdigit)
  rw [hrest c hc] at hident
  exact absurd hident (by decide)

theorem scanFraction_decimals : scanFraction (p.decimals ++ rest) = (p.fraction, rest) := by
  obtain ⟨negative, whole, fraction⟩ := p
  cases fraction with
  | nil =>
    have hpoint : ∀ tail, rest ≠ '.' :: tail := by
      rintro tail rfl
      exact absurd (hrest '.' rfl) (by decide)
    change scanFraction rest = ([], rest)
    unfold scanFraction
    split
    · next tail => exact absurd rfl (hpoint tail)
    · rfl
  | cons c tail =>
    obtain ⟨htake, hdrop⟩ := span_append hp.isDigit_fraction (head_not_isDigit hrest)
    change scanFraction ('.' :: ((c :: tail) ++ rest)) = (c :: tail, rest)
    rw [scanFraction, htake, hdrop]
    rfl

theorem span_magnitude : (p.magnitude ++ rest).takeWhile Char.isDigit = p.whole ∧
    (p.magnitude ++ rest).dropWhile Char.isDigit = p.decimals ++ rest := by
  rw [NumberParts.magnitude, List.append_assoc]
  refine span_append hp.isDigit_whole fun c hc => ?_
  unfold NumberParts.decimals at hc
  split at hc
  · exact head_not_isDigit hrest c hc
  · obtain rfl : '.' = c := by simpa using hc
    decide

/-- A scanner reads a number up to the first character that cannot go on an identifier. -/
theorem scanNumber_magnitude : scanNumber p.negative (p.magnitude ++ rest) = some (.number p.toFloat, rest) := by
  have hwhole : p.whole.isEmpty = false := List.isEmpty_eq_false_iff.mpr hp.whole_ne_nil
  have hafter : rest.head?.any isIdentifierChar = false := by
    cases rest with
    | nil => rfl
    | cons c rest => simpa using hrest c rfl
  obtain ⟨htake, hdrop⟩ := span_magnitude hp hrest
  simp [scanNumber, htake, hdrop, scanFraction_decimals hp hrest, hwhole, hafter, NumberParts.toFloat]

end Scan

end Query

/-! ## Reading -/

namespace Decimal

open Query (scanFraction_decimals span_magnitude)

theorem readDecimal?_magnitude {p : NumberParts} (hp : p.Valid) :
    readDecimal? p.negative p.magnitude = some (ofParts p.negative p.whole p.fraction 0) := by
  have hnil : ∀ c ∈ ([] : List Char).head?, Query.isIdentifierChar c = false := by simp
  obtain ⟨htake, hdrop⟩ := span_magnitude hp hnil
  rw [List.append_nil] at htake hdrop
  have hwhole : p.whole.isEmpty = false := List.isEmpty_eq_false_iff.mpr hp.whole_ne_nil
  unfold readDecimal?
  rw [htake, hdrop, List.append_nil]
  obtain ⟨negative, whole, fraction⟩ := p
  cases fraction with
  | nil => simp [NumberParts.decimals, hwhole, readExponent?]
  | cons c tail =>
    obtain ⟨htake', hdrop'⟩ := span_append hp.isDigit_fraction
      (show ∀ c ∈ ([] : List Char).head?, c.isDigit = false by simp)
    rw [List.append_nil] at htake' hdrop'
    simp only [NumberParts.decimals, List.isEmpty_cons, Bool.false_eq_true, if_false, htake', hdrop', hwhole,
      Bool.false_and, readExponent?]
    rfl

theorem isDigit_ne {c d : Char} (hc : c.isDigit = true) (hd : d.isDigit = false) : c ≠ d := by
  rintro rfl
  rw [hc] at hd
  exact absurd hd (by decide)

theorem toLower_of_isDigit {c : Char} (hc : c.isDigit = true) : c.toLower = c := by
  simp only [Char.isDigit, Bool.and_eq_true, decide_eq_true_eq, ge_iff_le, UInt32.le_iff_toNat_le] at hc
  unfold Char.toLower
  rw [dif_neg]
  rintro ⟨hupper, -⟩
  rw [ge_iff_le, UInt32.le_iff_toNat_le] at hupper
  have hnine : ('9'.val).toNat = 57 := rfl
  have hA : ('A'.val).toNat = 65 := rfl
  omega

theorem readFloat?_chars {p : NumberParts} (hp : p.Valid) : readFloat? (String.ofList p.chars) = some p.toFloat := by
  obtain ⟨c, tail, hcons⟩ := List.exists_cons_of_ne_nil hp.whole_ne_nil
  have hc : c.isDigit = true := hp.isDigit_whole c (by simp [hcons])
  have hmagnitude : p.magnitude = c :: (tail ++ p.decimals) := by rw [NumberParts.magnitude, hcons, List.cons_append]
  have hsign : splitSign p.chars = (p.negative, p.magnitude) := by
    obtain ⟨negative, whole, fraction⟩ := p
    cases negative with
    | true => rfl
    | false =>
      rw [show NumberParts.chars ⟨false, whole, fraction⟩ = NumberParts.magnitude ⟨false, whole, fraction⟩ from rfl,
        hmagnitude]
      unfold splitSign
      split
      · next heq => exact absurd (List.cons.inj heq).1 (isDigit_ne hc (by decide))
      · next heq => exact absurd (List.cons.inj heq).1 (isDigit_ne hc (by decide))
      · rfl
  -- a text that starts with a digit is not one of the names
  have hname (name : List Char) (h : name.head?.any Char.isDigit = false) :
      String.ofList (p.magnitude.map Char.toLower) ≠ String.ofList name := by
    intro heq
    have hlist := String.ofList_injective heq
    rw [hmagnitude, List.map_cons] at hlist
    have hhead : c ∈ name.head? := by
      rw [← hlist, toLower_of_isDigit hc]
      rfl
    exact isDigit_ne hc ((Option.any_eq_false Char.isDigit _).mp h c hhead) rfl
  unfold readFloat?
  simp only [String.toList_ofList, hsign]
  split
  · next heq => exact absurd heq (hname ['i', 'n', 'f'] rfl)
  · next heq => exact absurd heq (hname ['i', 'n', 'f', 'i', 'n', 'i', 't', 'y'] rfl)
  · next heq => exact absurd heq (hname ['n', 'a', 'n'] rfl)
  · rw [readDecimal?_magnitude hp]
    rfl

/-! ## Writing -/

theorem exists_positional (d : Decimal) : ∃ p : NumberParts, p.Valid ∧ d.positional = p.chars := by
  have hdigits : ∀ c ∈ d.digitChars, c.isDigit = true := fun c hc =>
    Nat.isDigit_of_mem_toDigits (by decide) (by decide) hc
  have hne : d.digitChars ≠ [] := Nat.toDigits_ne_nil
  have hzeros (n : Nat) : ∀ c ∈ List.replicate n '0', c.isDigit = true := by
    intro c hc
    obtain rfl := (List.mem_replicate.mp hc).2
    decide
  unfold positional
  dsimp only
  by_cases hexp : 0 ≤ d.exponent
  · refine ⟨⟨d.negative, d.digitChars ++ List.replicate d.exponent.natAbs '0', []⟩, ⟨by simp [hne], ?_, by simp⟩, ?_⟩
    · exact List.forall_mem_append.mpr ⟨hdigits, hzeros _⟩
    · rw [if_pos hexp]
      simp [NumberParts.chars, NumberParts.magnitude, NumberParts.decimals, signChars]
  have hpoint : 0 < d.exponent.natAbs := by omega
  by_cases hplaces : d.exponent.natAbs < d.digitChars.length
  · refine ⟨⟨d.negative, d.digitChars.take (d.digitChars.length - d.exponent.natAbs),
      d.digitChars.drop (d.digitChars.length - d.exponent.natAbs)⟩, ⟨?_, ?_, ?_⟩, ?_⟩
    · rw [Ne, List.take_eq_nil_iff, not_or]
      exact ⟨by omega, hne⟩
    · exact fun c hc => hdigits c (List.mem_of_mem_take hc)
    · exact fun c hc => hdigits c (List.mem_of_mem_drop hc)
    · have hfraction : (d.digitChars.drop (d.digitChars.length - d.exponent.natAbs)).isEmpty = false := by
        rw [List.isEmpty_eq_false_iff, Ne, List.drop_eq_nil_iff]
        omega
      rw [if_neg hexp, if_pos hplaces]
      simp [NumberParts.chars, NumberParts.magnitude, NumberParts.decimals, hfraction, signChars]
  · refine ⟨⟨d.negative, ['0'], List.replicate (d.exponent.natAbs - d.digitChars.length) '0' ++ d.digitChars⟩,
      ⟨by simp, by simp, ?_⟩, ?_⟩
    · exact List.forall_mem_append.mpr ⟨hzeros _, hdigits⟩
    · rw [if_neg hexp, if_neg hplaces]
      simp [NumberParts.chars, NumberParts.magnitude, NumberParts.decimals, hne, signChars]

end Decimal

namespace Query

/-- The text of a finite number has such parts, and if it reads back, then as the number. -/
theorem exists_numberText {x : Float} (hnan : x.isNaN = false) (hinf : x.isInf = false)
    (hread : Decimal.readFloat? (numberText x) = some x) :
    ∃ p : NumberParts, p.Valid ∧ (numberText x).toList = p.chars ∧ p.toFloat = x := by
  obtain ⟨p, hp, hchars⟩ := Decimal.exists_positional (Decimal.shortest .away x)
  have htext : numberText x = String.ofList p.chars := by
    simp only [numberText, hnan, hinf, hchars, Bool.false_eq_true, if_false]
  rw [htext, Decimal.readFloat?_chars hp] at hread
  exact ⟨p, hp, by rw [htext, String.toList_ofList], Option.some.inj hread⟩

end Query

end ProximitySearch
