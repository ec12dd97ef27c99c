import Mathlib.Algebra.Group.Nat.Even
import Mathlib.Data.List.DropRight
import ProximitySearch.Proofs.Patterns
import ProximitySearch.Proofs.Spelling

/-!
# Backslashes in quoted strings

Backslashes are read twice, once to find where a string ends and once to say what it means. The grammar
(`quotedString`) takes a backslash with the character behind it, and only where there is none takes it on its own;
`unescape` goes through the characters of the body and likewise takes the one behind a backslash, if there is one. The
two pair up backslashes alike. A backslash is on its own only at the end of a text, where no quote can follow, so in a
string that is accepted each has a character to take (`IsBody`): the body ends with an even number of backslashes, and
on such a body `unescape` never meets one with nothing behind it (`unescapeStrict?_eq`).

`quotedString_reads_back` says so of all texts, and that the grammar takes a text that was escaped up to its closing
quote, whatever follows, and that it stands for the text.
-/

namespace ProximitySearch.Query

/-! ## Bodies -/

/-- What stands between quotes: each backslash with the character behind it, and no quote but one that a backslash takes
with it. -/
inductive IsBody (quote : Char) : List Char → Prop
  | nil : IsBody quote []
  | pair {c : Char} {body : List Char} (hbody : IsBody quote body) : IsBody quote ('\\' :: c :: body)
  | plain {c : Char} {body : List Char} (hslash : c ≠ '\\') (hquote : c ≠ quote) (hbody : IsBody quote body) :
      IsBody quote (c :: body)

theorem isBody_of_scanBody {quote : Char} {text body rest : List Char} (h : scanBody quote text = some (body, rest)) :
    IsBody quote body ∧ text = body ++ quote :: rest := by
  fun_induction scanBody quote text generalizing body with
  | case1 => simp at h
  | case2 => simp at h
  | case3 d tail ih =>
    obtain ⟨⟨body, rest⟩, hscan, heq⟩ := Option.map_eq_some_iff.mp h
    obtain ⟨rfl, rfl⟩ := Prod.mk.inj heq
    obtain ⟨hbody, rfl⟩ := ih hscan
    exact ⟨.pair hbody, rfl⟩
  | case4 tail =>
    obtain ⟨rfl, rfl⟩ := Prod.mk.inj (Option.some.inj h)
    exact ⟨.nil, rfl⟩
  | case5 c tail hslash hquote ih =>
    obtain ⟨⟨body, rest⟩, hscan, heq⟩ := Option.map_eq_some_iff.mp h
    obtain ⟨rfl, rfl⟩ := Prod.mk.inj heq
    obtain ⟨hbody, rfl⟩ := ih hscan
    exact ⟨.plain hslash hquote hbody, rfl⟩

/-- A backslash takes even the quote that would end the body. -/
example : scanBody '\'' ['A', '\\', '\''] = none := by decide

/-! ## The grammar -/

/-- A piece of a string: a backslash with any character, or else a character that is not the quote. -/
def bodyItem (quote : Char) : Pattern :=
  .choice (.seq (.char '\\') .any) (.seq (.absent (.char quote)) .any)

/-- Pieces between two quotes. -/
def quotedBy (quote : Char) : Pattern :=
  .seq (.char quote) (.seq (.many (bodyItem quote)) (.char quote))

/-- A string in either quotes. -/
def quotedString : Pattern := .choice (quotedBy '\'') (quotedBy '"')

section

variable {quote c d : Char} {text body rest : List Char}

theorem bodyItem_pair : (bodyItem quote).Reads ('\\' :: d :: rest) (some (['\\', d], rest)) :=
  .choice_first (.seq_both .char_same .any_cons)

theorem bodyItem_lone_slash (hquote : quote ≠ '\\') : (bodyItem quote).Reads ['\\'] (some (['\\'], [])) :=
  .choice_second (.seq_second .char_same .any_nil) (.seq_both (.absent_missed (.char_other hquote.symm)) .any_cons)

theorem bodyItem_plain (hslash : c ≠ '\\') (hquote : c ≠ quote) :
    (bodyItem quote).Reads (c :: rest) (some ([c], rest)) :=
  .choice_second (.seq_first (.char_other hslash)) (.seq_both (.absent_missed (.char_other hquote)) .any_cons)

theorem bodyItem_quote (hquote : quote ≠ '\\') : (bodyItem quote).Reads (quote :: rest) none :=
  .choice_second (.seq_first (.char_other hquote)) (.seq_first (.absent_found .char_same))

theorem bodyItem_nil : (bodyItem quote).Reads [] none :=
  .choice_second (.seq_first .char_nil) (.seq_second (.absent_missed .char_nil) .any_nil)

theorem IsBody.reads (h : IsBody quote body) (hquote : quote ≠ '\\') :
    (Pattern.many (bodyItem quote)).Reads (body ++ quote :: rest) (some (body, quote :: rest)) := by
  induction h with
  | nil => exact .many_stop (bodyItem_quote hquote)
  | pair _ ih => exact .many_more bodyItem_pair ih
  | plain hslash hplain _ ih => exact .many_more (bodyItem_plain hslash hplain) ih

/-- Where no quote closes a body, the pieces take all of the text. -/
theorem reads_body_of_scanBody_none (hquote : quote ≠ '\\') (h : scanBody quote text = none) :
    ∃ body, (Pattern.many (bodyItem quote)).Reads text (some (body, [])) := by
  fun_induction scanBody quote text with
  | case1 => exact ⟨_, .many_stop bodyItem_nil⟩
  | case2 => exact ⟨_, .many_more (bodyItem_lone_slash hquote) (.many_stop bodyItem_nil)⟩
  | case3 d tail ih =>
    obtain ⟨body, hbody⟩ := ih (Option.map_eq_none_iff.mp h)
    exact ⟨_, .many_more bodyItem_pair hbody⟩
  | case4 => simp at h
  | case5 c tail hslash hc ih =>
    obtain ⟨body, hbody⟩ := ih (Option.map_eq_none_iff.mp h)
    exact ⟨_, .many_more (bodyItem_plain hslash hc) hbody⟩

/-- A pattern for a string takes what a scan for its closing quote finds, and fails where the scan does. -/
theorem reads_quotedBy (hquote : quote ≠ '\\') (text : List Char) :
    (quotedBy quote).Reads (quote :: text)
      ((scanBody quote text).map fun (body, rest) => (quote :: (body ++ [quote]), rest)) := by
  cases hscan : scanBody quote text with
  | none =>
    obtain ⟨body, hbody⟩ := reads_body_of_scanBody_none hquote hscan
    exact .seq_second .char_same (.seq_second hbody .char_nil)
  | some found =>
    obtain ⟨body, rest⟩ := found
    obtain ⟨hbody, rfl⟩ := isBody_of_scanBody hscan
    exact .seq_both .char_same (.seq_both (hbody.reads hquote) .char_same)

theorem reads_quotedString (hquote : quote = '\'' ∨ quote = '"') (text : List Char) :
    quotedString.Reads (quote :: text)
      ((scanBody quote text).map fun (body, rest) => (quote :: (body ++ [quote]), rest)) := by
  rcases hquote with rfl | rfl
  · have hreads := reads_quotedBy (ne_slash_of_quote (.inl rfl)) text
    cases hscan : scanBody '\'' text with
    | none =>
      rw [hscan] at hreads
      exact .choice_second hreads (.seq_first (.char_other (by decide)))
    | some found =>
      rw [hscan] at hreads
      exact .choice_first hreads
  · exact .choice_second (.seq_first (.char_other (by decide))) (reads_quotedBy (by decide) text)

theorem exists_quote_of_reads {taken : List Char} (h : quotedString.Reads text (some (taken, rest))) :
    ∃ quote tail, (quote = '\'' ∨ quote = '"') ∧ text = quote :: tail := by
  cases h with
  | choice_first h =>
    cases h with
    | seq_both hquote _ =>
      cases hquote
      exact ⟨_, _, .inl rfl, rfl⟩
  | choice_second _ h =>
    cases h with
    | seq_both hquote _ =>
      cases hquote
      exact ⟨_, _, .inr rfl, rfl⟩

/-! ## Backslashes -/

/-- The text that a body stands for, if there is a character after each backslash that takes one with it. -/
def unescapeStrict? : List Char → Option (List Char)
  | [] => some []
  | c :: rest =>
    if c = '\\' then
      match rest with
      | [] => none
      | d :: rest => (unescapeStrict? rest).map (escapedChar d :: ·)
    else (unescapeStrict? rest).map (c :: ·)

/-- Number of backslashes that a body ends with. -/
def slashesAtEnd (body : List Char) : Nat := (body.rtakeWhile (· = '\\')).length

theorem slashesAtEnd_cons (c : Char) (body : List Char) :
    slashesAtEnd (c :: body) = slashesAtEnd body + if (c :: body).all (· = '\\') then 1 else 0 := by
  rw [slashesAtEnd, slashesAtEnd, List.rtakeWhile, List.rtakeWhile, List.length_reverse, List.length_reverse,
    List.reverse_cons, List.takeWhile_append]
  by_cases hbody : body.reverse.takeWhile (· = '\\') = body.reverse
  · have hall : body.all (· = '\\') = true := by simpa using List.takeWhile_eq_self_iff.mp hbody
    rw [if_pos (congrArg List.length hbody), hbody, List.all_cons, hall, Bool.and_true]
    by_cases hc : c = '\\'
    · simp [hc]
    · simp [hc]
  · have hshort : ¬(body.reverse.takeWhile (· = '\\')).length = body.reverse.length := fun hlength =>
      hbody ((List.takeWhile_prefix _).eq_of_length hlength)
    have hall : ¬(c :: body).all (· = '\\') = true := fun hall =>
      hbody (List.takeWhile_eq_self_iff.mpr fun d hd =>
        List.all_eq_true.mp hall d (List.mem_cons_of_mem c (List.mem_reverse.mp hd)))
    rw [if_neg hshort, if_neg hall, Nat.add_zero]

theorem slashesAtEnd_plain (hslash : c ≠ '\\') : slashesAtEnd (c :: body) = slashesAtEnd body := by
  rw [slashesAtEnd_cons, List.all_cons, decide_eq_false hslash, Bool.false_and]
  rfl

theorem even_slashesAtEnd_pair : Even (slashesAtEnd ('\\' :: d :: body)) ↔ Even (slashesAtEnd body) := by
  have hsame : ('\\' :: d :: body).all (· = '\\') = (d :: body).all (· = '\\') := rfl
  rw [slashesAtEnd_cons, slashesAtEnd_cons, hsame]
  split
  · have htwo : Even (1 + 1) := by decide
    rw [Nat.add_assoc, Nat.even_add, iff_true_right htwo]
  · rfl

theorem unescapeStrict?_eq (body : List Char) :
    unescapeStrict? body = if Even (slashesAtEnd body) then some (unescape body) else none := by
  fun_induction unescapeStrict? body with
  | case1 => rfl
  | case2 => rfl
  | case3 d rest ih =>
    rw [ih, if_congr even_slashesAtEnd_pair rfl rfl, unescape_slash]
    split <;> rfl
  | case4 c rest hslash ih =>
    rw [ih, slashesAtEnd_plain hslash, unescape_plain hslash]
    split <;> rfl

theorem IsBody.even_slashesAtEnd (h : IsBody quote body) : Even (slashesAtEnd body) := by
  induction h with
  | nil => exact (Even.zero : Even 0)
  | pair _ ih => exact even_slashesAtEnd_pair.mpr ih
  | plain hslash _ _ ih =>
    rw [slashesAtEnd_plain hslash]
    exact ih

end

/-- For either quote, the grammar takes what `escape` writes for a text between quotes, up to the closing quote and no
further, and the token is that text. In any string that it takes, backslashes are paired: the body ends with an even
number of them, and to say what it means none need stand for itself. -/
theorem quotedString_reads_back :
    (∀ quote, quote = '\'' ∨ quote = '"' → ∀ (s : String) (rest : List Char),
      (∀ result, quotedString.Reads (quote :: (escape quote s.toList ++ quote :: rest)) result ↔
        result = some (quote :: (escape quote s.toList ++ [quote]), rest)) ∧
      unescape (escape quote s.toList) = s.toList ∧
      scanToken quote (escape quote s.toList ++ quote :: rest) = some (.string s, rest)) ∧
    ∀ text taken rest, quotedString.Reads text (some (taken, rest)) →
      ∃ quote body, (quote = '\'' ∨ quote = '"') ∧ taken = quote :: (body ++ [quote]) ∧ text = taken ++ rest ∧
        scanToken quote (body ++ quote :: rest) = some (.string (String.ofList (unescape body)), rest) ∧
        Even (slashesAtEnd body) ∧ unescapeStrict? body = some (unescape body) := by
  constructor
  · intro quote hquote s rest
    have hreads := reads_quotedString hquote (escape quote s.toList ++ quote :: rest)
    rw [scanBody_escape (ne_slash_of_quote hquote), Option.map_some] at hreads
    refine ⟨fun result => ⟨fun h => h.unique hreads, ?_⟩, ?_, ?_⟩
    · rintro rfl
      exact hreads
    · exact unescape_escape (escapedChar_quote hquote) s.toList
    · exact scanToken_string hquote s rest
  · intro text taken rest h
    obtain ⟨quote, tail, hquote, rfl⟩ := exists_quote_of_reads h
    have hresult := h.unique (reads_quotedString hquote tail)
    obtain ⟨⟨body, rest⟩, hscan, heq⟩ := Option.map_eq_some_iff.mp hresult.symm
    obtain ⟨rfl, rfl⟩ := Prod.mk.inj heq
    obtain ⟨hbody, rfl⟩ := isBody_of_scanBody hscan
    have heven := hbody.even_slashesAtEnd
    refine ⟨quote, body, hquote, rfl, h.append_eq.symm, ?_, heven, ?_⟩
    · rw [scanToken_quote hquote, hscan, Option.map_some]
    · rw [unescapeStrict?_eq, if_pos heven]

/-- A text with a quote in it and a backslash at its end, in single quotes; and a body of backslashes in pairs and a
quote with one in front, in double quotes. -/
theorem quotedString_reads_back_slashes :
    escape '\'' "it's \\".toList = ['i', 't', '\\', '\'', 's', ' ', '\\', '\\'] ∧
      (∀ result, quotedString.Reads ('\'' :: (escape '\'' "it's \\".toList ++ '\'' :: [','])) result ↔
        result = some ('\'' :: (escape '\'' "it's \\".toList ++ ['\'']), [','])) ∧
      scanToken '\'' (escape '\'' "it's \\".toList ++ '\'' :: [',']) = some (.string "it's \\", [',']) ∧
      quotedString.Reads ['"', '\\', '\\', '\\', '"', '\\', '\\', '"', ',']
        (some (['"', '\\', '\\', '\\', '"', '\\', '\\', '"'], [','])) ∧
      ∃ quote body, (quote = '\'' ∨ quote = '"') ∧
        ['"', '\\', '\\', '\\', '"', '\\', '\\', '"'] = quote :: (body ++ [quote]) ∧
        ['"', '\\', '\\', '\\', '"', '\\', '\\', '"', ','] = ['"', '\\', '\\', '\\', '"', '\\', '\\', '"'] ++ [','] ∧
        scanToken quote (body ++ quote :: [',']) = some (.string (String.ofList (unescape body)), [',']) ∧
        Even (slashesAtEnd body) ∧ unescapeStrict? body = some (unescape body) := by
  obtain ⟨hwritten, htaken⟩ := quotedString_reads_back
  obtain ⟨hreads, -, hscan⟩ := hwritten '\'' (.inl rfl) "it's \\" [',']
  have hread : quotedString.Reads ['"', '\\', '\\', '\\', '"', '\\', '\\', '"', ',']
      (some (['"', '\\', '\\', '\\', '"', '\\', '\\', '"'], [','])) := by
    have hclosed : scanBody '"' ['\\', '\\', '\\', '"', '\\', '\\', '"', ','] =
        some (['\\', '\\', '\\', '"', '\\', '\\'], [',']) := by decide
    have hread := reads_quotedString (.inr rfl) ['\\', '\\', '\\', '"', '\\', '\\', '"', ',']
    rw [hclosed] at hread
    exact hread
  exact ⟨by decide +kernel, hreads, hscan, hread, htaken _ _ _ hread⟩

end ProximitySearch.Query
