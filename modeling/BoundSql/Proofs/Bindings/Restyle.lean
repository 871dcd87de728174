import BoundSql.Proofs.Bindings.Exchange
import BoundSql.Proofs.Bindings.Lookup

/-!
# The same values under another style

What is bound, and at which position, does not depend on the style: the bindings that a walk leaves under another style
are the same ones with their tokens written anew (`Bindings.restyled`, `Binder.bindScalars_restyled`). In bindings of
one style the token of a value is found again from the arguments and the position that it carries, so the token of the
other style is, too (`Bindings.OfScheme.exists_restyled`).
-/

namespace BoundSql

open Placeholder (Style)

/-! ## Tokens written anew -/

namespace Placeholder.Style

/-- Text that a style writes for a value with a canonical text, at a position. -/
def text : Style → Value → String → Nat → String
  | .numbered, v, _, position => numberedText v.typeTag position
  | .contentHash, _, canonical, position => contentText canonical position

theorem token_eq_text (style : Style) {v : Value} {canonical : String} (hv : v.canonical = .ok canonical)
    (position : Nat) : style.scheme.token v canonical position = .ok (style.text v canonical position) := by
  obtain ⟨token, htoken⟩ := style.token_ok hv position
  rw [htoken, token_eq htoken]
  cases style <;> rfl

/-- Token that a style makes for the argument at a position. -/
def tokenAt? (style : Style) (args : List Value) : Nat → Option String
  | 0 => none
  | i + 1 => do
    let a ← args[i]?
    let canonical ← a.canonical.toOption
    (style.scheme.token a canonical (i + 1)).toOption

/-- A token in another style: that of the argument whose position it carries. -/
def restyled? (style : Style) (args : List Value) (token : String) : Option String :=
  (carried? token).bind (style.tokenAt? args)

end Placeholder.Style

namespace Bindings

/-- An entry with the token of a style. -/
def restyledEntry (style : Style) (e : String × Binding) : String × Binding :=
  (e.1, { e.2 with placeholder := style.text e.2.value e.1 e.2.position })

@[simp] theorem fst_restyledEntry (style : Style) (e : String × Binding) : (restyledEntry style e).1 = e.1 := rfl

/-- The same values with the tokens of a style. -/
def restyled (style : Style) (m : Bindings) : Bindings := ⟨m.entries.map (restyledEntry style)⟩

variable {style : Style} {m : Bindings}

@[simp] theorem toList_restyled (style : Style) (m : Bindings) :
    (m.restyled style).toList = m.toList.map (restyledEntry style) := by
  simp [restyled, toList]

@[simp] theorem args_restyled (style : Style) (m : Bindings) : (m.restyled style).args = m.args := by
  simp [args, restyledEntry]

@[simp] theorem keys_restyled (style : Style) (m : Bindings) : (m.restyled style).keys = m.keys := by
  simp [keys, restyledEntry]

@[simp] theorem nextPosition_restyled (style : Style) (m : Bindings) :
    (m.restyled style).nextPosition = m.nextPosition := by
  simp [nextPosition, size, restyled]

theorem restyled_empty (style : Style) : restyled style empty = empty := by
  simp [restyled, empty]

theorem contains_restyled (style : Style) (m : Bindings) (canonical : String) :
    (m.restyled style).contains canonical = m.contains canonical := by
  rw [Bool.eq_iff_iff, contains_iff, contains_iff, keys_restyled]

theorem restyled_push (style : Style) (m : Bindings) (canonical token : String) (v : Value) :
    (m.push canonical token v).restyled style =
      (m.restyled style).push canonical (style.text v canonical m.nextPosition) v := by
  simp [restyled, push, restyledEntry, nextPosition, size]

theorem find?_restyledEntry (style : Style) (canonical : String) (es : List (String × Binding)) :
    (es.map (restyledEntry style)).find? (·.1 = canonical) =
      (es.find? (·.1 = canonical)).map (restyledEntry style) := by
  induction es with
  | nil => rfl
  | cons e es ih =>
    rw [List.map_cons, List.find?_cons, List.find?_cons, ih, fst_restyledEntry]
    cases decide (e.1 = canonical) <;> rfl

theorem get?_restyled (style : Style) (m : Bindings) (canonical : String) : (m.restyled style).get? canonical =
    (m.get? canonical).map fun b => (restyledEntry style (canonical, b)).2 := by
  rw [get?_eq, get?_eq, toList_restyled, find?_restyledEntry]
  cases hfind : m.toList.find? (·.1 = canonical) with
  | none => rfl
  | some e =>
    have hkey : e.1 = canonical := by simpa using List.find?_some hfind
    simp only [Option.map_some, ← hkey]

theorem placeholderFor?_restyled (style : Style) (m : Bindings) (v : Value) : (m.restyled style).placeholderFor? v =
    (m.bindingFor? v).bind fun b => v.canonical.toOption.map fun text => style.text b.value text b.position := by
  unfold placeholderFor? bindingFor?
  cases v.canonical with
  | error f => rfl
  | ok canonical =>
    dsimp only
    rw [get?_restyled]
    cases m.get? canonical <;> rfl

/-- **The token of a value under another style is the one for the argument that its token leads to.** -/
theorem OfScheme.exists_restyled {made : Style} (h : m.OfScheme made.scheme) (style : Style) {v : Value}
    {token : String} (htoken : m.placeholderFor? v = some token) : ∃ token',
    style.restyled? m.args token = some token' ∧ (m.restyled style).placeholderFor? v = some token' := by
  obtain ⟨canonical, binding, hv, hget, rfl⟩ := placeholderFor?_eq_some.1 htoken
  obtain ⟨i, hargs, hposition, hcanonical, hmade⟩ := h.argument hget
  refine ⟨style.text binding.value canonical (i + 1), ?_, ?_⟩
  · rw [Style.restyled?, Style.carried?_token hmade]
    simp only [Style.tokenAt?, hargs, hcanonical, style.token_eq_text hcanonical, Except.toOption,
      Option.bind_eq_bind, Option.bind_some]
  · rw [placeholderFor?_restyled, bindingFor?, hv]
    dsimp only
    rw [hget, Option.bind_some, hposition]
    rfl

end Bindings

/-! ## Walks -/

/-- What a walk has left, with the tokens of a style. -/
def Bound.restyled (style : Style) (b : Bound) : Bound := { b with bindings := b.bindings.restyled style }

namespace Binder

/-- One scalar is bound under another style as it is under the first. -/
theorem bindScalar_restyled (made style : Style) (ignored : List String) (m : Bindings) (v : Value) :
    (⟨style.scheme, ignored⟩ : Binder).bindScalar (m.restyled style) v =
      Bindings.restyled style <$> (⟨made.scheme, ignored⟩ : Binder).bindScalar m v := by
  unfold bindScalar
  cases hv : v.canonical with
  | error f => rfl
  | ok canonical =>
    simp only [bind, Except.bind, Bindings.contains_restyled, Bindings.nextPosition_restyled,
      Style.token_eq_text _ hv]
    split
    · rfl
    · exact congrArg Except.ok (Bindings.restyled_push style m _ _ v).symm

/-- **A walk binds the same values under another style, and is stopped alike.** -/
theorem bindScalars_restyled (made style : Style) (ignored : List String) (m : Bindings) (vs : List Value) :
    (⟨style.scheme, ignored⟩ : Binder).bindScalars (m.restyled style) vs =
      ((⟨made.scheme, ignored⟩ : Binder).bindScalars m vs).restyled style := by
  induction vs generalizing m with
  | nil => rfl
  | cons v vs ih =>
    unfold bindScalars
    rw [bindScalar_restyled made]
    cases (⟨made.scheme, ignored⟩ : Binder).bindScalar m v with
    | error f => rfl
    | ok m₁ => exact ih m₁

end Binder

end BoundSql
