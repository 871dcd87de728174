import BoundSql.FieldMap
import BoundSql.Value.Normal
import Mathlib.Tactic.ByContra

/-!
# Values that name fields

A value that names a mapped field is a text, and the text is the name of the field.
-/

namespace BoundSql.FieldMap

variable {fields : FieldMap} {v : Value}

/-- A text names a field iff it is the name of one. -/
theorem named?_text (fields : FieldMap) (s : String) :
    (∃ column, fields.named? (.text s) = some column) ↔ s ∈ fields.fields := by
  show (∃ column, fields.get? s = some column) ↔ s ∈ fields.keys
  rw [← Option.isSome_iff_exists, Option.isSome_iff_ne_none, Ne, Dict.get?_eq_none_iff, not_not]

theorem named?_eq_none {text : String} (hv : v.canonical = .ok text) (h : text ∉ fields.fields) :
    fields.named? v = none := by
  cases v with
  | text s =>
    cases Except.ok.inj hv
    exact Dict.get?_eq_none_iff.2 h
  | _ => rfl

theorem named?_of_error {f : Failure} (hv : v.canonical = .error f) : fields.named? v = none := by
  cases v with
  | text s => cases hv
  | _ => rfl

theorem mem_fields_of_named? {text column : String} (hv : v.canonical = .ok text)
    (h : fields.named? v = some column) : text ∈ fields.fields := by
  by_contra hname
  rw [named?_eq_none hv hname] at h
  cases h

end BoundSql.FieldMap
