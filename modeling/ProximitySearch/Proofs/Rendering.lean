import ProximitySearch.Proofs.Expressions
import ProximitySearch.Proofs.Layout

/-!
# The text of a tree

A tree in which an expression is laid out below the script has the text of the expression
(`Tree.render?_of_layout`): a node's text is made of the texts below it like the text of an expression of
those of its operands.
-/

namespace ProximitySearch.Query

namespace Expr

def operandText (e : Expr) : List Char :=
  (wrap e.isCompound e.tokens).flatMap Token.printed

theorem operandText_eq (e : Expr) :
    e.operandText = if e.isCompound then '(' :: (e.text ++ [')']) else e.text := by
  unfold operandText wrap text
  split
  · simp [Token.printed, Token.symbol]
  · rfl

theorem flatMap_printed_joinTokens (t : Token) (operands : List Expr) :
    (joinTokens t (operandTokens operands)).flatMap Token.printed =
      t.printed.intercalate (operands.map operandText) := by
  rw [operandTokens_eq_map]
  cases operands with
  | nil => rfl
  | cons e others =>
    rw [List.map_cons, joinTokens, List.flatMap_append]
    induction others generalizing e with
    | nil => simp [operandText]
    | cons e' others ih =>
      rw [List.map_cons, List.map_cons, List.map_cons, List.intercalate_cons_cons, ← List.map_cons, ← ih e']
      simp [operandText]

end Expr

namespace Tree

variable {t : Tree}

theorem isCompound_eq {id : Nat} {e : Expr} (h : t.kind? id = some e.kind) : t.isCompound id = e.isCompound := by
  rw [isCompound, h]
  cases e <;> rfl

theorem operandText_eq {id : Nat} {e : Expr} (h : t.kind? id = some e.kind) :
    t.operandText id (String.ofList e.text) = String.ofList e.operandText := by
  rw [operandText, isCompound_eq h, Expr.operandText_eq]
  split
  · apply String.toList_inj.mp
    simp
  · rfl

theorem zipWith_operandText {ids : List Nat} {es : List Expr} (h : ids.map t.kind? = es.map fun e => some e.kind) :
    List.zipWith t.operandText ids (es.map fun e => String.ofList e.text) =
      es.map fun e => String.ofList e.operandText := by
  induction es generalizing ids with
  | nil => simp
  | cons e others ih =>
    have hne : ids ≠ [] := by
      rintro rfl
      simp at h
    obtain ⟨id, ids, rfl⟩ := List.exists_cons_of_ne_nil hne
    obtain ⟨hkind, hkinds⟩ := List.cons.inj h
    rw [List.map_cons, List.zipWith_cons_cons, ih hkinds, operandText_eq hkind, List.map_cons]

theorem printedChildren_eq {e : Expr} {parent : Option Nat} {ids : List Nat} (h : ids.length = e.operands.length) :
    printedChildren ⟨e.kind, parent, ids⟩ = ids := by
  cases e with
  | comparison op left right => simp [printedChildren, Expr.kind, h, Expr.operands]
  | identifier name => simp_all [printedChildren, Expr.kind, Expr.operands]
  | literal value => simp_all [printedChildren, Expr.kind, Expr.operands]
  | _ => rfl

theorem literalText_eq (value : Literal) : (literalText value).toList = value.token.printed := by
  cases value with
  | string s => simp [literalText, Literal.token, Token.printed, Token.symbol]
  | number x => rfl
  | boolean b => rfl
  | null => rfl

theorem nodeText_eq {e : Expr} {parent : Option Nat} {ids : List Nat}
    (h : ids.map t.kind? = e.operands.map fun e => some e.kind) :
    t.nodeText ⟨e.kind, parent, ids⟩ (e.operands.map fun e => String.ofList e.text) = String.ofList e.text := by
  have hlength : ids.length = e.operands.length := by simpa using congrArg List.length h
  apply String.toList_inj.mp
  rw [nodeText, printedChildren_eq hlength, zipWith_operandText h, String.toList_ofList, Expr.text]
  cases e with
  | and operands =>
    rw [Expr.tokens, Expr.flatMap_printed_joinTokens]
    simp [Expr.kind, Expr.operands, Token.printed, Function.comp_def]
  | or operands =>
    rw [Expr.tokens, Expr.flatMap_printed_joinTokens]
    simp [Expr.kind, Expr.operands, Token.printed, Function.comp_def]
  | not e =>
    rw [Expr.tokens]
    simp [Expr.kind, Expr.operands, Token.printed, Token.symbol, Expr.operandText]
  | delayed e =>
    rw [Expr.tokens]
    simp [Expr.kind, Expr.operands, Token.printed, Token.symbol, markerTokens, Expr.text]
  | function space name arguments =>
    rw [Expr.tokens]
    simp [Expr.kind, Expr.operands, Token.printed, Token.symbol, Function.comp_def,
      Expr.flatMap_printed_joinTokens]
  | comparison op left right =>
    rw [Expr.tokens]
    simp [Expr.kind, Expr.operands, Token.printed, Expr.text]
  | identifier name =>
    rw [Expr.tokens]
    simp [Expr.kind, Token.printed, Token.symbol]
  | literal value =>
    rw [Expr.tokens]
    simp [Expr.kind, literalText_eq]

/-- Expressions that are laid out have their texts, for walks that may be as long as they take nodes. -/
theorem Layout.render {parent id next : Nat} {es : List Expr} {ids : List Nat} (h : t.Layout parent id es ids next)
    {depth : Nat} (hdepth : next ≤ id + depth) :
    ids.mapM (t.renderWithin? depth) = some (es.map fun e => String.ofList e.text) := by
  induction h generalizing depth with
  | nil => rfl
  | @cons parent id mid last e others below ids hnode hbelow hothers ihbelow ihothers =>
    have hmid := hbelow.le
    have hlast := hothers.le
    obtain ⟨depth, rfl⟩ : ∃ d, depth = d + 1 := ⟨depth - 1, by omega⟩
    have hfirst : t.renderWithin? (depth + 1) id = some (String.ofList e.text) := by
      have hread : below.mapM (t.renderWithin? depth) = some (e.operands.map fun e => String.ofList e.text) :=
        ihbelow (by omega)
      rw [renderWithin?, hnode]
      dsimp only
      rw [printedChildren_eq hbelow.length_ids, hread, Option.map_some, nodeText_eq hbelow.kinds]
    rw [List.mapM_cons, hfirst, ihothers (by omega)]
    rfl

theorem render?_of_layout {e : Expr} (hscript : t.node? root = some ⟨.script, none, [1]⟩)
    (h : t.Layout root 1 [e] [1] t.size) : t.render? = some (String.ofList e.text) := by
  have hread : [1].mapM (t.renderWithin? t.size) = some [String.ofList e.text] := h.render (Nat.le_add_left _ _)
  rw [render?, renderWithin?, hscript]
  dsimp only [printedChildren]
  rw [hread, Option.map_some, nodeText]
  simp

end Tree

end ProximitySearch.Query
