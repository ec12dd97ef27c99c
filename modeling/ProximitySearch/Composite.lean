import ProximitySearch.Error

/-!
# Composite names

Names of several components joined by NUL:

* a document's family, `datatype\0owner`;
* a pair, `value\0field`;
* the family and qualifier of a field-index entry, `fi\0field` and `value\0datatype\0owner`.

A name is read from the left. `cut?` splits at the first separator, so the last component may hold separators of its
own, while `split` splits at every one.
-/

namespace ProximitySearch

namespace Composite

/-- Components before and after the first `sep`. -/
def cut? {α : Type} [DecidableEq α] (sep : α) : List α → Option (List α × List α)
  | [] => none
  | a :: rest =>
    if a = sep then some ([], rest) else (cut? sep rest).map fun (left, right) => (a :: left, right)

theorem cut?_append {α : Type} [DecidableEq α] {sep : α} {left : List α} (h : sep ∉ left) (right : List α) :
    cut? sep (left ++ sep :: right) = some (left, right) := by
  induction left with
  | nil => simp [cut?]
  | cons a rest ih =>
    have ha : a ≠ sep := fun ha => h (ha ▸ List.mem_cons_self)
    have hrest : sep ∉ rest := fun hrest => h (List.mem_cons_of_mem _ hrest)
    simp [cut?, ha, ih hrest]

theorem eq_append_of_cut? {α : Type} [DecidableEq α] {sep : α} {l left right : List α}
    (h : cut? sep l = some (left, right)) : l = left ++ sep :: right ∧ sep ∉ left := by
  induction l generalizing left with
  | nil => simp [cut?] at h
  | cons a rest ih =>
    unfold cut? at h
    split at h
    · next ha =>
      obtain ⟨rfl, rfl⟩ := Prod.mk.inj (Option.some.inj h)
      simp [ha]
    · next ha =>
      obtain ⟨⟨left', right'⟩, hcut, heq⟩ := Option.map_eq_some_iff.mp h
      obtain ⟨rfl, rfl⟩ := Prod.mk.inj heq
      obtain ⟨rfl, hmem⟩ := ih hcut
      exact ⟨rfl, by simp [hmem, Ne.symm ha]⟩

/-- All components between separators; there is one more than separators. -/
def split {α : Type} [DecidableEq α] (sep : α) : List α → List (List α)
  | [] => [[]]
  | a :: rest =>
    if a = sep then [] :: split sep rest
    else
      match split sep rest with
      | [] => [[a]]
      | part :: parts => (a :: part) :: parts

/-- The character between components. -/
abbrev separator : Char := '\x00'

/-- Text before and after the first separator. -/
def cutText? (text : String) : Option (String × String) :=
  (cut? separator text.toList).map fun (left, right) => (String.ofList left, String.ofList right)

/-- Components of a text. -/
def components (text : String) : List String :=
  (split separator text.toList).map String.ofList

/-- Two components as one name. -/
def join (left right : String) : String :=
  left ++ separator.toString ++ right

end Composite

open Composite

/-! ## Documents -/

/-- A document: its datatype, and its uid or the owner id of one of its parts. -/
structure DocumentId where
  datatype : String
  owner : String
deriving DecidableEq, Repr

namespace DocumentId

/-- The family `datatype\0owner` of a document's key. -/
def family (id : DocumentId) : Bytes :=
  Utf8.encode (join id.datatype id.owner)

/-- Reads a family. The separator is sought among the octets, before either half is read as text. -/
def parse (family : Bytes) : Except KeyFault DocumentId :=
  match cut? 0 family with
  | none => .error (.noDocumentSeparator family)
  | some (datatype, owner) => do
    let datatype ← (Utf8.decode datatype).mapError .datatypeEncoding
    let owner ← (Utf8.decode owner).mapError .uidEncoding
    return ⟨datatype, owner⟩

end DocumentId

/-- Whether `owner` is `parent` or one of its parts, whose ids extend it by a dot and more. -/
def isSameOrChildOwner (owner parent : String) : Bool :=
  owner == parent || (parent ++ ".").toList.isPrefixOf owner.toList

/-! ## Pairs and the field index -/

/-- The pair `value\0field`. -/
def pairName (value field : String) : String :=
  join value field

/-- Family `fi\0field` of a field's entries in the field index. -/
def fieldIndexFamily (field : String) : String :=
  join "fi" field

/-- Qualifier `value\0datatype\0owner` of a field-index entry. -/
def fieldIndexQualifier (value : String) (id : DocumentId) : String :=
  join value (join id.datatype id.owner)

/-- Reads the document of a field-index qualifier. Its value is known to whoever looks it up and is not returned. -/
def parseFieldIndexQualifier (qualifier : Bytes) : Except KeyFault DocumentId := do
  let text ← (Utf8.decode qualifier).mapError .fieldIndexEncoding
  match (cutText? text).bind fun (_, rest) => cutText? rest with
  | some (datatype, owner) => return ⟨datatype, owner⟩
  | none => throw (.noFieldIndexSeparators qualifier)

end ProximitySearch
