import BoundSql.Proofs.Sql.Readable
import BoundSql.Proofs.Sql.Written

/-!
# Placeholders in a text

A piece of a template is written as at most one placeholder, that of its value (`Piece.placed`), so the placeholders of
a text are those of its pieces, one after the other (`placeholders_filled`). Read off a statement's text, they are
placeholders of the values that the text has a place for, in the order of these (`placeholders_sublist`); what is left
out are the texts of a condition that name a field (`mem_placeholders`).
-/

namespace BoundSql

open Sql (Token Writer Piece Context)

/-- Text of a token, if it is a placeholder. -/
def Sql.Token.placeholder? : Token → Option String
  | .placeholder text => some text
  | _ => none

namespace Sql

/-- Placeholders among some tokens, in order. -/
def placeholders (ts : List Token) : List String := ts.filterMap Token.placeholder?

/-- A placeholder among some tokens carries a position. -/
def Uses (ts : List Token) (position : Nat) : Prop :=
  ∃ text ∈ placeholders ts, Placeholder.carried? text = some position

theorem placeholders_plain {ts : List Token} (h : Plain ts) : placeholders ts = [] := by
  refine List.filterMap_eq_nil_iff.2 ?_
  intro t ht
  have hplain := h t ht
  cases t with
  | placeholder text => cases hplain
  | _ => rfl

variable {ctx : Context} {v : Value} {p : Piece} {ps : List Piece} {ts : List Token}

/-- Placeholder that a piece is written as, if it is written as one. -/
def Piece.placed (ctx : Context) : Piece → Option String
  | .token _ => none
  | .cell v => ctx.values.placeholderFor? v
  | .scalar v => if (ctx.fields.named? v).isSome then none else ctx.values.placeholderFor? v

theorem placeholderFor?_of_isNull {m : Bindings} (h : v.isNull = true) : m.placeholderFor? v = none := by
  cases v with
  | null => rfl
  | _ => cases h

theorem placeholders_boundTokens {m : Bindings} (h : boundTokens m v = .ok ts) :
    placeholders ts = (m.placeholderFor? v).toList := by
  unfold boundTokens at h
  split at h
  · next hnull =>
    cases h
    rw [placeholderFor?_of_isNull hnull]
    rfl
  · split at h
    · next token htoken =>
      cases h
      rw [htoken]
      rfl
    · cases h

theorem placeholders_write (hp : p.Plain) (h : ctx.writer.write p = .ok ts) :
    placeholders ts = (p.placed ctx).toList := by
  cases p with
  | token t =>
    cases h
    exact placeholders_plain (plain_singleton hp)
  | cell v => exact placeholders_boundTokens h
  | scalar v =>
    have h' : scalarTokens ctx v = .ok ts := h
    dsimp only [scalarTokens] at h'
    dsimp only [Piece.placed]
    cases hnamed : ctx.fields.named? v with
    | some column =>
      rw [hnamed] at h'
      cases h'
      exact placeholders_plain (nameTokens_plain column)
    | none =>
      rw [hnamed] at h'
      exact placeholders_boundTokens h'

/-- **The placeholders of a text are those of its pieces**, one after the other. -/
theorem placeholders_filled (hps : ∀ p ∈ ps, p.Plain) (h : ctx.writer.Filled ps ts) :
    placeholders ts = ps.filterMap (Piece.placed ctx) := by
  induction ps generalizing ts with
  | nil =>
    rw [Writer.filled_nil.1 h]
    rfl
  | cons p ps ih =>
    obtain ⟨part, rest, hp, hrest, rfl⟩ := Writer.filled_cons.1 h
    have hpart := placeholders_write (hps p List.mem_cons_self) hp
    have htail := ih (fun p hp => hps p (List.mem_cons_of_mem _ hp)) hrest
    rw [placeholders, List.filterMap_append, ← placeholders, ← placeholders, hpart, htail, List.filterMap_cons]
    cases p.placed ctx <;> rfl

/-! ## Placeholders and values -/

/-- The placeholder of a piece is that of its value. -/
theorem placed_sublist (p : Piece) :
    (p.placed ctx).toList.Sublist (p.values.filterMap ctx.values.placeholderFor?) := by
  have hsingle : ∀ v, (ctx.values.placeholderFor? v).toList = [v].filterMap ctx.values.placeholderFor? := by
    intro v
    rw [List.filterMap_cons]
    cases ctx.values.placeholderFor? v <;> rfl
  cases p with
  | token t => exact .slnil
  | cell v =>
    cases v with
    | null => exact .slnil
    | list items => exact List.nil_sublist _
    | _ => exact hsingle _ ▸ .refl _
  | scalar v =>
    dsimp only [Piece.placed]
    split
    · exact List.nil_sublist _
    · show List.Sublist _ (List.filterMap _ (if v.isNull then [] else [v]))
      split
      · next hnull =>
        rw [placeholderFor?_of_isNull hnull]
        exact .slnil
      · exact hsingle v ▸ .refl _

/-- Placeholders come in the order of the values. -/
theorem placeholders_sublist (hps : ∀ p ∈ ps, p.Plain) (h : ctx.writer.Filled ps ts) :
    (placeholders ts).Sublist ((ps.flatMap Piece.values).filterMap ctx.values.placeholderFor?) := by
  rw [placeholders_filled hps h, List.filterMap_flatMap, List.filterMap_eq_flatMap_toList]
  exact flatMap_sublist placed_sublist ps

/-- A value that was written has its placeholder among those of the text, unless it is the name of a field in a
condition. -/
theorem placed_of_mem (h : ctx.writer.Filled ps ts) (hp : p ∈ ps) (hv : v ∈ p.values)
    (hcolumn : (∃ x, p = .cell x) ∨ ctx.fields.named? v = none) : p.placed ctx = ctx.values.placeholderFor? v := by
  cases p with
  | token t => cases hv
  | scalar u =>
    have hu : v = u := by
      replace hv : v ∈ if u.isNull then [] else [u] := hv
      split at hv
      · cases hv
      · exact List.mem_singleton.1 hv
    subst hu
    obtain ⟨x, hx⟩ | hnamed := hcolumn
    · cases hx
    · rw [Piece.placed, hnamed]
      rfl
  | cell x =>
    obtain ⟨part, hpart⟩ := Writer.exists_filled_iff.1 ⟨ts, h⟩ _ hp
    -- a list has no placeholder, so it cannot have been written
    cases x with
    | null => cases hv
    | list items => cases hpart
    | _ =>
      obtain rfl := List.mem_singleton.1 hv
      rfl

theorem mem_placeholders (hps : ∀ p ∈ ps, p.Plain) (h : ctx.writer.Filled ps ts) (hp : p ∈ ps) (hv : v ∈ p.values)
    (hcolumn : (∃ x, p = .cell x) ∨ ctx.fields.named? v = none) {text : String}
    (htext : ctx.values.placeholderFor? v = some text) : text ∈ placeholders ts := by
  rw [placeholders_filled hps h]
  exact List.mem_filterMap.2 ⟨p, hp, (placed_of_mem h hp hv hcolumn).trans htext⟩

end Sql

end BoundSql
