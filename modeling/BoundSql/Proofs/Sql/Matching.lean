import BoundSql.Sql.Statement
import Mathlib.Data.List.Forall2

/-!
# Statements that differ in their values

Two conditions match along a relation of values if they are equal but for their literals, and the literals in the same
places are related (`Condition.Matches`). Rows and statements match in the same way. Along equality everything matches
itself.

A relation is *shaped* if it relates missing values only to missing values and lists only to lists, item by item.
-/

namespace BoundSql

/-! ## Values -/

/-- A relation that keeps apart missing values, lists and other values. -/
structure Value.Shaped (R : Value → Value → Prop) : Prop where
  null : ∀ {v v'}, R v v' → v.isNull = v'.isNull
  list : ∀ {v v'}, R v v' → v.isList = v'.isList
  items : ∀ {vs vs'}, R (.list vs) (.list vs') → List.Forall₂ R vs vs'

theorem Value.Shaped.eq : Value.Shaped Eq where
  null h := h ▸ rfl
  list h := h ▸ rfl
  items h := by
    cases h
    exact List.forall₂_same.2 fun _ _ => rfl

theorem Value.Shaped.isEmptyList {R : Value → Value → Prop} (hR : Value.Shaped R) {v v' : Value} (h : R v v') :
    v.isEmptyList = v'.isEmptyList := by
  have hlist := hR.list h
  cases v with
  | list items =>
    cases v' with
    | list items' => cases hR.items h <;> rfl
    | _ => cases hlist
  | _ =>
    cases v' with
    | list items' => cases hlist
    | _ => rfl

/-! ## Conditions -/

section

variable (R : Value → Value → Prop)

mutual

/-- Terms that are equal but for related literals. -/
def Term.Matches : Term → Term → Prop
  | .literal v, .literal v' => R v v'
  | .field f, .field f' => f = f'
  | .condition c, .condition c' => c.Matches c'
  | _, _ => False

/-- Conditions that are equal but for related literals. -/
def Condition.Matches : Condition → Condition → Prop
  | ⟨operator, terms, negated⟩, ⟨operator', terms', negated'⟩ =>
    operator = operator' ∧ negated = negated' ∧ Term.AllMatch terms terms'

/-- Equally many terms, each of which matches its partner. -/
def Term.AllMatch : List Term → List Term → Prop
  | [], [] => True
  | t :: ts, t' :: ts' => t.Matches t' ∧ Term.AllMatch ts ts'
  | _, _ => False

end

/-- Rows with the same columns and related values. -/
def Row.Matches (row row' : Row) : Prop := List.Forall₂ (fun e e' => e.1 = e'.1 ∧ R e.2 e'.2) row.entries row'.entries

/-- Joins of the same table whose conditions match. -/
def Join.Matches (j j' : Join) : Prop := j.kind = j'.kind ∧ j.table = j'.table ∧ j.condition.Matches R j'.condition

/-! ## Statements -/

/-- Selections that differ in literals only. -/
structure Select.Matches (s s' : Select) : Prop where
  fields : s.fields = s'.fields
  tables : s.tables = s'.tables
  joins : List.Forall₂ (Join.Matches R) s.joins s'.joins
  condition : Option.Rel (Condition.Matches R) s.condition s'.condition
  ordering : s.ordering = s'.ordering
  limit : s.limit = s'.limit
  offset : s.offset = s'.offset

/-- Insertions that differ in values only. -/
structure Insert.Matches (s s' : Insert) : Prop where
  table : s.table = s'.table
  columns : s.columns = s'.columns
  rows : List.Forall₂ (Row.Matches R) s.rows s'.rows

/-- Updates that differ in new values and in literals only. -/
structure Update.Matches (s s' : Update) : Prop where
  table : s.table = s'.table
  changes : Row.Matches R s.changes s'.changes
  condition : Option.Rel (Condition.Matches R) s.condition s'.condition
  ordering : s.ordering = s'.ordering
  limit : s.limit = s'.limit

/-- Removals that differ in literals only. -/
structure Delete.Matches (s s' : Delete) : Prop where
  table : s.table = s'.table
  condition : Option.Rel (Condition.Matches R) s.condition s'.condition
  ordering : s.ordering = s'.ordering
  limit : s.limit = s'.limit
  offset : s.offset = s'.offset

end

theorem Row.Matches.isEmpty {R : Value → Value → Prop} {row row' : Row} (h : row.Matches R row') :
    row.isEmpty = row'.isEmpty := by
  rw [Bool.eq_iff_iff, Dict.isEmpty, Dict.isEmpty, List.isEmpty_iff_length_eq_zero,
    List.isEmpty_iff_length_eq_zero, h.length_eq]

theorem Row.Matches.get? {R : Value → Value → Prop} {row row' : Row} (h : row.Matches R row') (column : String) :
    Option.Rel R (row.get? column) (row'.get? column) := by
  unfold Row.Matches at h
  unfold Dict.get?
  generalize row.entries = entries, row'.entries = entries' at h
  induction h with
  | nil => exact .none
  | @cons e e' _ _ he _ ih =>
    rw [List.find?_cons, List.find?_cons, ← he.1]
    cases decide (e.1 = column) with
    | true => exact .some he.2
    | false => exact ih

/-! ## Everything matches itself -/

mutual

theorem Term.matches_self : ∀ t : Term, t.Matches Eq t
  | .literal _ => rfl
  | .field _ => rfl
  | .condition c => Condition.matches_self c

theorem Condition.matches_self : ∀ c : Condition, c.Matches Eq c
  | ⟨_, terms, _⟩ => ⟨rfl, rfl, Term.allMatch_self terms⟩

theorem Term.allMatch_self : ∀ ts : List Term, Term.AllMatch Eq ts ts
  | [] => trivial
  | t :: ts => ⟨Term.matches_self t, Term.allMatch_self ts⟩

end

theorem Row.matches_self (row : Row) : Row.Matches Eq row row := List.forall₂_same.2 fun _ _ => ⟨rfl, rfl⟩

theorem optionRel_self {α : Type} {R : α → α → Prop} (h : ∀ a, R a a) : ∀ a : Option α, Option.Rel R a a
  | none => .none
  | some a => .some (h a)

theorem Select.matches_self (s : Select) : s.Matches Eq s where
  fields := rfl
  tables := rfl
  joins := List.forall₂_same.2 fun j _ => ⟨rfl, rfl, j.condition.matches_self⟩
  condition := optionRel_self Condition.matches_self _
  ordering := rfl
  limit := rfl
  offset := rfl

theorem Insert.matches_self (s : Insert) : s.Matches Eq s where
  table := rfl
  columns := rfl
  rows := List.forall₂_same.2 fun row _ => Row.matches_self row

theorem Update.matches_self (s : Update) : s.Matches Eq s where
  table := rfl
  changes := Row.matches_self _
  condition := optionRel_self Condition.matches_self _
  ordering := rfl
  limit := rfl

theorem Delete.matches_self (s : Delete) : s.Matches Eq s where
  table := rfl
  condition := optionRel_self Condition.matches_self _
  ordering := rfl
  limit := rfl
  offset := rfl

end BoundSql
