import BoundSql.Proofs.Bindings.History
import BoundSql.Proofs.Bindings.Lookup
import BoundSql.Proofs.Sql.Related
import BoundSql.Proofs.Sql.Scan

/-!
# Texts that can be read back

A placeholder that a style has made can be read whatever follows it. So if each of the bindings has a token of some
style, as it has after any requests of styles (`Bindings.after_styled`), every token of a condition or a statement can
be read back (`conditionTokens_readable`, `Statement.units_styled`).
-/

namespace BoundSql

open Sql (Token Context)
open Placeholder (Style)

/-! ## Bindings of styles -/

/-- A token that one of the two styles writes. -/
def Placeholder.OfStyle (token : String) : Prop :=
  ∃ (style : Style) (v : Value) (canonical : String) (position : Nat),
    style.scheme.token v canonical position = .ok token

/-- What a style writes is numbered or has a checksum. -/
theorem Placeholder.OfStyle.text_eq {token : String} (h : OfStyle token) :
    (∃ tag position, token = Style.numberedText tag position) ∨
      ∃ canonical position, token = Style.contentText canonical position := by
  obtain ⟨style, v, canonical, position, h⟩ := h
  rw [Style.token_eq h]
  cases style with
  | numbered => exact Or.inl ⟨v.typeTag, position, rfl⟩
  | contentHash => exact Or.inr ⟨canonical, position, rfl⟩

namespace Bindings

/-- Bindings whose tokens are all written by styles, which may differ. -/
def Styled (m : Bindings) : Prop := ∀ e ∈ m.toList, Placeholder.OfStyle e.2.placeholder

theorem OfScheme.styled {style : Style} {m : Bindings} (h : m.OfScheme style.scheme) : m.Styled := by
  intro e he
  obtain ⟨i, hi⟩ := List.mem_iff_getElem?.1 he
  exact ⟨style, _, _, _, (h.made i e hi).2.2⟩

/-- **After any requests of styles**, whoever has made which of them, every token is one of a style. -/
theorem after_styled {requests : List BindRequest}
    (h : ∀ r ∈ requests, ∃ style : Style, r.binder.scheme = style.scheme) : (after requests).Styled := by
  intro e he
  obtain ⟨i, hi⟩ := List.mem_iff_getElem?.1 he
  obtain ⟨r, ⟨before, later, rfl, _⟩, _, _, hmade⟩ := after_made hi
  obtain ⟨style, hstyle⟩ := h r (List.mem_append_right _ List.mem_cons_self)
  exact ⟨style, _, _, _, hstyle ▸ hmade⟩

theorem Styled.ofStyle {m : Bindings} (h : m.Styled) {v : Value} {token : String}
    (htoken : m.placeholderFor? v = some token) : Placeholder.OfStyle token := by
  obtain ⟨canonical, binding, _, hget, rfl⟩ := placeholderFor?_eq_some.1 htoken
  obtain ⟨i, hi⟩ := getElem?_of_get? hget
  exact h _ (List.mem_of_getElem? hi)

end Bindings

/-! ## Tokens of styles -/

namespace Sql

/-- A token that is no placeholder, or one of a style. -/
def Token.Styled : Token → Prop
  | .placeholder text => Placeholder.OfStyle text
  | _ => True

theorem Token.Styled.readable {t : Token} (h : t.Styled) : t.Readable := by
  cases t with
  | placeholder text =>
    obtain ⟨style, v, canonical, position, h⟩ := h
    exact ⟨position, Style.leading?_token h⟩
  | _ => trivial

theorem styled_of_plain {ts : List Token} (h : Plain ts) : ∀ t ∈ ts, t.Styled := by
  intro t ht
  have hplain := h t ht
  cases t with
  | placeholder text => cases hplain
  | _ => trivial

variable {values : Bindings}

theorem boundTokens_styled (h : values.Styled) (v : Value) : All Token.Styled (boundTokens values v) := by
  intro ts hts
  unfold boundTokens at hts
  split at hts
  · cases hts
    exact List.forall_mem_singleton.2 trivial
  · split at hts
    · next token htoken =>
      cases hts
      exact List.forall_mem_singleton.2 (h.ofStyle htoken)
    · cases hts

theorem Context.writer_keeps_styled (h : values.Styled) (fields : FieldMap) :
    (writer ⟨values, fields⟩).Keeps Token.Styled where
  token t ht := styled_of_plain (plain_singleton ht) t List.mem_cons_self
  scalar v := by
    have hbound := boundTokens_styled h v
    dsimp only [writer, scalarTokens]
    split
    · exact .ok (styled_of_plain (nameTokens_plain _))
    · exact hbound

/-- **Every token of a condition can be read back.** -/
theorem conditionTokens_readable {style : Style} (h : values.OfScheme style.scheme) {fields : FieldMap} {c : Condition}
    {ts : List Token} (hts : conditionTokens ⟨values, fields⟩ c = .ok ts) : ∀ t ∈ ts, t.Readable := fun t ht =>
  (conditionUnits_all (Context.writer_keeps_styled h.styled fields) fields c ts hts t ht).readable

end Sql

end BoundSql
