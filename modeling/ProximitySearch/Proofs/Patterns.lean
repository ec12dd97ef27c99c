/-!
# Patterns

Patterns for the front of a text, with committed choices: a choice that has succeeded is not tried again when what
follows fails, and a repetition takes as much as it can. `Pattern.Reads` says what a pattern makes of a text, by one
rule for each way in which a pattern succeeds or fails. There is one outcome at most (`Pattern.Reads.unique`).
-/

namespace ProximitySearch.Query

/-- A pattern for the front of a text. -/
inductive Pattern where
  /-- Any character. -/
  | any
  /-- This character. -/
  | char (c : Char)
  /-- One pattern and then the other. -/
  | seq (first second : Pattern)
  /-- The first pattern or, only if that fails, the second. -/
  | choice (first second : Pattern)
  /-- The pattern again and again, until it fails. -/
  | many (item : Pattern)
  /-- Nothing, where the pattern fails. -/
  | absent (unwanted : Pattern)

namespace Pattern

/-- What a pattern makes of the front of a text: the characters that it takes and the rest, or none if it fails. -/
inductive Reads : Pattern → List Char → Option (List Char × List Char) → Prop
  | any_cons {c : Char} {rest : List Char} : Reads .any (c :: rest) (some ([c], rest))
  | any_nil : Reads .any [] none
  | char_same {c : Char} {rest : List Char} : Reads (.char c) (c :: rest) (some ([c], rest))
  | char_other {c d : Char} {rest : List Char} (hne : d ≠ c) : Reads (.char c) (d :: rest) none
  | char_nil {c : Char} : Reads (.char c) [] none
  | seq_both {p q : Pattern} {text mid rest front back : List Char} (hfirst : Reads p text (some (front, mid)))
      (hsecond : Reads q mid (some (back, rest))) : Reads (.seq p q) text (some (front ++ back, rest))
  | seq_first {p q : Pattern} {text : List Char} (hfirst : Reads p text none) : Reads (.seq p q) text none
  | seq_second {p q : Pattern} {text mid front : List Char} (hfirst : Reads p text (some (front, mid)))
      (hsecond : Reads q mid none) : Reads (.seq p q) text none
  | choice_first {p q : Pattern} {text : List Char} {taken : List Char × List Char}
      (hfirst : Reads p text (some taken)) : Reads (.choice p q) text (some taken)
  | choice_second {p q : Pattern} {text : List Char} {result : Option (List Char × List Char)}
      (hfirst : Reads p text none) (hsecond : Reads q text result) : Reads (.choice p q) text result
  | many_stop {p : Pattern} {text : List Char} (hitem : Reads p text none) : Reads (.many p) text (some ([], text))
  | many_more {p : Pattern} {text mid rest front back : List Char} (hitem : Reads p text (some (front, mid)))
      (hmore : Reads (.many p) mid (some (back, rest))) : Reads (.many p) text (some (front ++ back, rest))
  | absent_found {p : Pattern} {text : List Char} {taken : List Char × List Char} (hfound : Reads p text (some taken)) :
      Reads (.absent p) text none
  | absent_missed {p : Pattern} {text : List Char} (hmissed : Reads p text none) :
      Reads (.absent p) text (some ([], text))

variable {p q : Pattern} {text : List Char} {result result' : Option (List Char × List Char)}

/-- A pattern makes one thing of a text: choices are never taken back. -/
theorem Reads.unique (h : p.Reads text result) (h' : p.Reads text result') : result = result' := by
  induction h generalizing result' with
  | any_cons | any_nil | char_nil => cases h'; rfl
  | char_same =>
    cases h' with
    | char_same => rfl
    | char_other hne => exact absurd rfl hne
  | char_other hne =>
    cases h' with
    | char_same => exact absurd rfl hne
    | char_other => rfl
  | seq_both _ _ ihfirst ihsecond =>
    cases h' with
    | seq_both hfirst hsecond =>
      cases ihfirst hfirst
      cases ihsecond hsecond
      rfl
    | seq_first hfirst => cases ihfirst hfirst
    | seq_second hfirst hsecond =>
      cases ihfirst hfirst
      cases ihsecond hsecond
  | seq_first _ ihfirst =>
    cases h' with
    | seq_both hfirst => cases ihfirst hfirst
    | seq_first | seq_second => rfl
  | seq_second _ _ ihfirst ihsecond =>
    cases h' with
    | seq_both hfirst hsecond =>
      cases ihfirst hfirst
      cases ihsecond hsecond
    | seq_first | seq_second => rfl
  | choice_first _ ihfirst =>
    cases h' with
    | choice_first hfirst => exact ihfirst hfirst
    | choice_second hfirst => cases ihfirst hfirst
  | choice_second _ _ ihfirst ihsecond =>
    cases h' with
    | choice_first hfirst => cases ihfirst hfirst
    | choice_second _ hsecond => exact ihsecond hsecond
  | many_stop _ ihitem =>
    cases h' with
    | many_stop => rfl
    | many_more hitem => cases ihitem hitem
  | many_more _ _ ihitem ihmore =>
    cases h' with
    | many_stop hitem => cases ihitem hitem
    | many_more hitem hmore =>
      cases ihitem hitem
      cases ihmore hmore
      rfl
  | absent_found _ ih =>
    cases h' with
    | absent_found => rfl
    | absent_missed hmissed => cases ih hmissed
  | absent_missed _ ih =>
    cases h' with
    | absent_found hfound => cases ih hfound
    | absent_missed => rfl

theorem Reads.append_eq {taken rest : List Char} (h : p.Reads text (some (taken, rest))) : taken ++ rest = text := by
  generalize hresult : some (taken, rest) = result at h
  induction h generalizing taken rest with
  | any_cons | char_same | absent_missed | many_stop =>
    obtain ⟨rfl, rfl⟩ := Prod.mk.inj (Option.some.inj hresult)
    rfl
  | seq_both _ _ ihfirst ihsecond =>
    obtain ⟨rfl, rfl⟩ := Prod.mk.inj (Option.some.inj hresult)
    rw [List.append_assoc, ihsecond rfl, ihfirst rfl]
  | many_more _ _ ihitem ihmore =>
    obtain ⟨rfl, rfl⟩ := Prod.mk.inj (Option.some.inj hresult)
    rw [List.append_assoc, ihmore rfl, ihitem rfl]
  | choice_first _ ihfirst => exact ihfirst hresult
  | choice_second _ _ _ ihsecond => exact ihsecond hresult
  | _ => cases hresult

end Pattern

end ProximitySearch.Query
