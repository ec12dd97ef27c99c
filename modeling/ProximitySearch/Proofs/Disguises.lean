import ProximitySearch.Proofs.Expressions
import ProximitySearch.Proofs.Layout

/-!
# Disguised expressions

The marker of a delayed expression starts like an ordinary group. So a conjunction whose first operand is the
comparison `_Delayed_ == true` is disguised (`Expr.isDisguised`): once it is printed in parentheses, it is
taken for a delayed expression (`Expr.misread`). What is read back from the text of an expression has a
delayed expression in the place of each such conjunction below it (`Expr.reread`), and is the same expression
just if there is none (`Expr.reread_eq_self_iff`). Where no identifier is the word of the marker there is none
(`Expr.IsNormal.undisguised`).
-/

namespace ProximitySearch.Query

namespace Expr

/-- The comparison that is written like the inside of a marker, with the sign doubled. -/
def isMarkerComparison : Expr → Bool
  | .comparison .eq (.identifier "_Delayed_") (.literal (.boolean true)) => true
  | _ => false

/-- A conjunction that is written like a delayed expression, once it stands in parentheses. -/
def isDisguised : Expr → Bool
  | .and (first :: _) => first.isMarkerComparison
  | _ => false

/-- No expression below another, where it would stand in parentheses, is disguised. -/
abbrev Undisguised : Expr → Prop := Everywhere fun e => ∀ d ∈ e.operands, d.isDisguised = false

/-- What an expression in parentheses is taken for: itself, or a delayed expression if it is disguised as one. -/
def misread : Expr → Expr
  | .and (first :: others) =>
    if first.isMarkerComparison then .delayed (conjunction others) else .and (first :: others)
  | e => e

mutual

/-- What is read back from the text of an expression. -/
def reread : Expr → Expr
  | .and operands => .and (rereadAll operands)
  | .or operands => .or (rereadAll operands)
  | .not e => .not e.reread.misread
  | .delayed e => .delayed e.reread.misread
  | .function space name arguments => .function space name (rereadAll arguments)
  | .comparison op left right => .comparison op left.reread.misread right.reread.misread
  | .identifier name => .identifier name
  | .literal value => .literal value

def rereadAll : List Expr → List Expr
  | [] => []
  | e :: others => e.reread.misread :: rereadAll others

end

/-! ## In parentheses -/

theorem isMarkerComparison_iff {e : Expr} :
    e.isMarkerComparison = true ↔ e = .comparison .eq (.identifier "_Delayed_") (.literal (.boolean true)) := by
  constructor
  · intro h
    unfold isMarkerComparison at h
    split at h
    · rfl
    · simp at h
  · rintro rfl
    rfl

theorem isDisguised_of_not_isCompound {e : Expr} (h : e.isCompound = false) : e.isDisguised = false := by
  cases e with
  | and operands => simp [isCompound] at h
  | _ => rfl

theorem not_isCompound_of_isComparable {e : Expr} (h : e.isComparable = true) : e.isCompound = false := by
  cases e <;> simp_all [isComparable, isCompound]

theorem misread_of_not_isDisguised {e : Expr} (h : e.isDisguised = false) : e.misread = e := by
  unfold misread
  split
  · exact if_neg (Bool.eq_false_iff.mp h)
  · rfl

theorem isMarkerComparison_misread (e : Expr) : e.misread.isMarkerComparison = e.isMarkerComparison := by
  unfold misread
  split
  · split <;> rfl
  · rfl

theorem isDisguised_misread (e : Expr) : e.misread.isDisguised = false := by
  unfold misread
  split
  · split
    · rfl
    · next h => exact Bool.eq_false_iff.mpr h
  · next h =>
    cases e with
    | and operands =>
      cases operands with
      | nil => rfl
      | cons first others => exact absurd rfl (h first others)
    | _ => rfl

theorem misread_and (operands : List Expr) :
    (and operands).misread = .and operands ∨ ∃ e, (and operands).misread = .delayed e := by
  unfold misread
  split
  · split
    · exact .inr ⟨_, rfl⟩
    · next heq _ => exact .inl heq.symm
  · exact .inl rfl

/-! ## Reading back -/

theorem rereadAll_eq_map (es : List Expr) : rereadAll es = es.map fun e => e.reread.misread := by
  induction es with
  | nil => rw [rereadAll, List.map_nil]
  | cons e others ih => rw [rereadAll, ih, List.map_cons]

theorem misread_reread_eq_identifier {e : Expr} {name : String} :
    e.reread.misread = .identifier name ↔ e = .identifier name := by
  cases e with
  | and operands => rcases misread_and (rereadAll operands) with h | ⟨d, h⟩ <;> simp [reread, h]
  | _ => simp [reread, misread]

theorem misread_reread_eq_literal {e : Expr} {value : Literal} :
    e.reread.misread = .literal value ↔ e = .literal value := by
  cases e with
  | and operands => rcases misread_and (rereadAll operands) with h | ⟨d, h⟩ <;> simp [reread, h]
  | _ => simp [reread, misread]

theorem isMarkerComparison_reread (e : Expr) : e.reread.isMarkerComparison = e.isMarkerComparison := by
  rw [Bool.eq_iff_iff, isMarkerComparison_iff, isMarkerComparison_iff]
  cases e with
  | comparison op left right => simp [reread, misread_reread_eq_identifier, misread_reread_eq_literal]
  | _ => simp [reread]

theorem isDisguised_reread (e : Expr) : e.reread.isDisguised = e.isDisguised := by
  cases e with
  | and operands =>
    cases operands with
    | nil => simp [reread, rereadAll]
    | cons first others =>
      simp [reread, rereadAll, isDisguised, isMarkerComparison_misread, isMarkerComparison_reread]
  | _ => simp [reread, isDisguised]

theorem isAnd_misread_reread {e : Expr} (h : e.isAnd = false) : e.reread.misread.isAnd = false := by
  cases e with
  | and operands => simp [isAnd] at h
  | _ => simp [reread, misread, isAnd]

theorem isOr_misread_reread {e : Expr} (h : e.isOr = false) : e.reread.misread.isOr = false := by
  cases e with
  | or operands => simp [isOr] at h
  | and operands => rcases misread_and (rereadAll operands) with h | ⟨d, h⟩ <;> simp [reread, h, isOr]
  | _ => simp [reread, misread, isOr]

theorem misread_reread_eq_self_iff (e : Expr) : e.reread.misread = e ↔ e.isDisguised = false ∧ e.reread = e := by
  constructor
  · intro h
    have hplain : e.isDisguised = false := h ▸ isDisguised_misread e.reread
    refine ⟨hplain, ?_⟩
    rwa [misread_of_not_isDisguised ((isDisguised_reread e).trans hplain)] at h
  · rintro ⟨hplain, h⟩
    rw [h, misread_of_not_isDisguised hplain]

theorem reread_eq_self_iff_operands (e : Expr) :
    e.reread = e ↔ ∀ d ∈ e.operands, d.isDisguised = false ∧ d.reread = d := by
  have hmap (es : List Expr) : (es.map fun d => d.reread.misread) = es ↔ ∀ d ∈ es, d.reread.misread = d := by
    constructor
    · intro h
      exact List.map_inj_left.mp (h.trans (List.map_id' es).symm)
    · intro h
      exact (List.map_inj_left.mpr h).trans (List.map_id' es)
  simp only [← misread_reread_eq_self_iff]
  cases e <;> simp [reread, operands, rereadAll_eq_map, hmap]

theorem misread_reread_of_not_isCompound {e : Expr} (h : e.isCompound = false) : e.reread.misread = e.reread :=
  misread_of_not_isDisguised ((isDisguised_reread e).trans (isDisguised_of_not_isCompound h))

/-- An expression is read back as it is just if none below it is disguised. -/
theorem reread_eq_self_iff (e : Expr) : e.reread = e ↔ e.Undisguised := by
  induction e using operands_induction with
  | step e ih =>
    rw [reread_eq_self_iff_operands]
    constructor
    · intro h
      exact .intro (fun d hd => (h d hd).1) fun d hd => (ih d hd).mp (h d hd).2
    · rintro ⟨hhere, hbelow⟩ d hd
      exact ⟨hhere d hd, (ih d hd).mpr (hbelow d hd)⟩

/-! ## Normal expressions -/

theorem IsNormal.mono {reserved reserved' : List String} (hsub : ∀ w ∈ reserved', w ∈ reserved) {e : Expr}
    (h : e.IsNormal reserved) : e.IsNormal reserved' := by
  induction h with
  | and hlen hflat _ ih => exact .and hlen hflat ih
  | or hlen hflat _ ih => exact .or hlen hflat ih
  | not _ ih => exact .not ih
  | delayed _ ih => exact .delayed ih
  | function hspace hname _ ih => exact .function hspace hname ih
  | comparison hleft hright _ _ ihleft ihright => exact .comparison hleft hright ihleft ihright
  | identifier hname hfree => exact .identifier hname fun hmem => hfree (hsub _ hmem)
  | literal hvalue => exact .literal hvalue

theorem IsNormal.of_mem_operands {reserved : List String} {e : Expr} (h : e.IsNormal reserved) :
    ∀ d ∈ e.operands, d.IsNormal reserved := by
  intro d hd
  cases h with
  | and _ _ hoperands => exact hoperands d hd
  | or _ _ hoperands => exact hoperands d hd
  | not he => exact List.mem_singleton.mp hd ▸ he
  | delayed he => exact List.mem_singleton.mp hd ▸ he
  | function _ _ harguments => exact harguments d hd
  | comparison _ _ hleft hright =>
    rcases List.mem_cons.mp hd with rfl | hd
    · exact hleft
    · exact List.mem_singleton.mp hd ▸ hright
  | identifier => simp [operands] at hd
  | literal => simp [operands] at hd

theorem IsNormal.isDisguised {e : Expr} (h : e.IsNormal reservedWords) : e.isDisguised = false := by
  cases h with
  | @and operands hlen _ hoperands =>
    obtain ⟨first, others, rfl⟩ := List.exists_cons_of_length_pos (Nat.lt_of_lt_of_le (by decide) hlen)
    by_contra hdisguised
    have hmarker : first.isMarkerComparison = true := by simpa [Expr.isDisguised] using hdisguised
    have hfirst := hoperands first (by simp)
    rw [isMarkerComparison_iff.mp hmarker] at hfirst
    cases hfirst with
    | comparison _ _ hword _ =>
      cases hword with
      | identifier _ hfree => exact hfree (by decide)
  | _ => rfl

theorem IsNormal.undisguised {e : Expr} (h : e.IsNormal reservedWords) : e.Undisguised := by
  induction e using operands_induction with
  | step e ih =>
    have hbelow := h.of_mem_operands
    exact .intro (fun d hd => (hbelow d hd).isDisguised) fun d hd => ih d hd (hbelow d hd)

end Expr

end ProximitySearch.Query
