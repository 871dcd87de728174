import BoundSql.Proofs.Sql.Matching
import BoundSql.Proofs.Success
import BoundSql.Record

/-!
# Sources that answer alike

A row is read from a source by asking it for the mapped fields one by one. So two sources, of whatever types, give
matching rows or fail alike if they answer alike: both find related values, or both fail (`Row.ofSource_related`).
-/

namespace BoundSql

variable {R : Value → Value → Prop} {E : Failure → Failure → Prop}

/-! ## Rows -/

theorem Row.Matches.keys {row row' : Row} (h : row.Matches R row') : row.keys = row'.keys := by
  have hkeys := List.Forall₂.imp (fun _ _ he => he.1) h
  exact List.forall₂_eq_eq_eq ▸ List.forall₂_map_left_iff.2 (List.forall₂_map_right_iff.2 hkeys)

theorem Row.Matches.values {row row' : Row} (h : row.Matches R row') : List.Forall₂ R row.values row'.values := by
  have hvalues := List.Forall₂.imp (fun _ _ he => he.2) h
  exact List.forall₂_map_left_iff.2 (List.forall₂_map_right_iff.2 hvalues)

theorem Row.Matches.insert {row row' : Row} (h : row.Matches R row') (column : String) {v v' : Value} (hv : R v v') :
    Row.Matches R (row.insert column v) (row'.insert column v') := by
  have hcontains : row.contains column = row'.contains column := by
    rw [Bool.eq_iff_iff, Dict.contains_iff, Dict.contains_iff, h.keys]
  unfold Row.Matches
  rw [Dict.entries_insert, Dict.entries_insert, hcontains]
  split
  · refine List.rel_map (fun e e' he => ?_) h
    unfold Dict.replaceEntry
    rw [← he.1]
    split
    · exact ⟨rfl, hv⟩
    · exact he
  · exact List.rel_append h (.cons ⟨rfl, hv⟩ .nil)

/-! ## Sources -/

/-- Sources that find related values under every key, or fail in related ways. -/
def FieldSource.Alike {σ σ' : Type} [FieldSource σ] [FieldSource σ'] (E : Failure → Failure → Prop)
    (R : Value → Value → Prop) (source : σ) (source' : σ') : Prop :=
  ∀ key, Related E R (FieldSource.field source key) (FieldSource.field source' key)

/-- A relation of failures that keeps apart those that report a missing key. -/
structure Failure.Shaped (E : Failure → Failure → Prop) : Prop where
  refl : ∀ f, E f f
  isNotFound : ∀ {f f'}, E f f' → f.isNotFound = f'.isNotFound

namespace Row

variable {σ σ' : Type} [FieldSource σ] [FieldSource σ'] {source : σ} {source' : σ'}

theorem cell_related (hR : Value.Shaped R) (hE : Failure.Shaped E) (h : FieldSource.Alike E R source source')
    (field : String) : Related E (Option.Rel R) (cell source field) (cell source' field) := by
  have hfield := h field
  unfold cell
  generalize FieldSource.field source field = x, FieldSource.field source' field = y at hfield
  cases hfield with
  | @error f f' hf =>
    dsimp only
    rw [← hE.isNotFound hf]
    split
    · exact .ok .none
    · exact .error hf
  | @ok v v' hv =>
    have hlist := hR.list hv
    cases v with
    | list items =>
      cases v' with
      | list items' => exact .error (hE.refl _)
      | _ => cases hlist
    | _ =>
      cases v' with
      | list items' => cases hlist
      | _ => exact .ok (.some hv)

theorem addCells_related (hR : Value.Shaped R) (hE : Failure.Shaped E) (h : FieldSource.Alike E R source source')
    (fields : List (String × String)) {row row' : Row} (hrow : row.Matches R row') :
    Related E (Matches R) (addCells source row fields) (addCells source' row' fields) := by
  induction fields generalizing row row' with
  | nil => exact .ok hrow
  | cons entry fields ih =>
    unfold addCells
    refine (cell_related hR hE h entry.1).bind ?_
    intro a b hab
    cases hab with
    | none => exact ih hrow
    | some hv => exact ih (hrow.insert entry.2 hv)

/-- **Sources that answer alike give matching rows.** -/
theorem ofSource_related (hR : Value.Shaped R) (hE : Failure.Shaped E) (h : FieldSource.Alike E R source source')
    (fields : FieldMap) : Related E (Matches R) (ofSource fields source) (ofSource fields source') :=
  addCells_related hR hE h fields.entries .nil

end Row

end BoundSql
