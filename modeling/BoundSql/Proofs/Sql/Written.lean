import BoundSql.Proofs.Bindings.Scalars
import BoundSql.Proofs.Sql.AnyStatement
import BoundSql.Proofs.Sql.Collected

/-!
# The values that a text has a place for

A binder meets every scalar of a condition (`Condition.scalars`), a writer those that the text has a place for
(`Condition.written`). They meet the same scalars in the same order, but for one case: what is tested for membership in
the empty list is not written, since the test is written as a constant. So what is written is a sublist of what is
bound (`Condition.written_sublist`).

That writers keep to this is read off the template: the values that are left in place in it are those of
`Condition.written`, in order (`conditionUnits_holds`). The same holds of the statements that find rows by a condition
(`Statement.units_holds`).
-/

namespace BoundSql

open Sql (Token Piece template)

/-! ## Written scalars -/

mutual

/-- Scalars of a term that its text has a place for. -/
def Term.written : Term → List Value
  | .field _ => []
  | .literal v => Binder.scalarsOf v
  | .condition c => c.written

/-- Scalars of a condition that its text has a place for. -/
def Condition.written : Condition → List Value
  | ⟨operator, terms, _⟩ => if Condition.isVoid operator terms then [] else Term.allWritten terms

/-- Scalars of several terms that their texts have a place for. -/
def Term.allWritten : List Term → List Value
  | [] => []
  | t :: ts => t.written ++ Term.allWritten ts

end

/-- Sublists for every item are a sublist for all of them. -/
theorem flatMap_sublist {α β : Type} {f g : α → List β} (h : ∀ a, (f a).Sublist (g a)) (as : List α) :
    (as.flatMap f).Sublist (as.flatMap g) := by
  induction as with
  | nil => exact .slnil
  | cons a as ih =>
    rw [List.flatMap_cons, List.flatMap_cons]
    exact (h a).append ih

mutual

theorem Term.written_sublist : ∀ t : Term, t.written.Sublist t.scalars
  | .field _ => .refl _
  | .literal _ => .refl _
  | .condition c => Condition.written_sublist c

/-- **What is written is bound, in the same order.** -/
theorem Condition.written_sublist : ∀ c : Condition, c.written.Sublist c.scalars
  | ⟨operator, terms, _⟩ => by
    rw [Condition.written, Condition.scalars]
    split
    · exact List.nil_sublist _
    · exact Term.allWritten_sublist terms

theorem Term.allWritten_sublist : ∀ ts : List Term, (Term.allWritten ts).Sublist (Term.allScalars ts)
  | [] => .refl _
  | t :: ts => (Term.written_sublist t).append (Term.allWritten_sublist ts)

end

mutual

/-- A term without a test of a literal for membership in the empty list. -/
def Term.Lossless : Term → Prop
  | .condition c => c.Lossless
  | _ => True

/-- A condition without a test of a literal for membership in the empty list. -/
def Condition.Lossless : Condition → Prop
  | ⟨operator, terms, _⟩ =>
    (Condition.isVoid operator terms = true → Term.allScalars terms = []) ∧ Term.AllLossless terms

/-- Terms without a test of a literal for membership in the empty list. -/
def Term.AllLossless : List Term → Prop
  | [] => True
  | t :: ts => t.Lossless ∧ Term.AllLossless ts

end

mutual

theorem Term.Lossless.written_eq : ∀ {t : Term}, t.Lossless → t.written = t.scalars
  | .field _, _ => rfl
  | .literal _, _ => rfl
  | .condition _, h => Condition.Lossless.written_eq h

/-- All of a condition is written if nothing but fields is tested for membership in the empty list. -/
theorem Condition.Lossless.written_eq : ∀ {c : Condition}, c.Lossless → c.written = c.scalars
  | ⟨operator, terms, _⟩, h => by
    rw [Condition.written, Condition.scalars]
    split
    · next hvoid => exact (h.1 hvoid).symm
    · exact Term.AllLossless.written_eq h.2

theorem Term.AllLossless.written_eq : ∀ {ts : List Term}, Term.AllLossless ts →
    Term.allWritten ts = Term.allScalars ts
  | [], _ => rfl
  | _ :: _, h => by
    rw [Term.allWritten, Term.allScalars, Term.Lossless.written_eq h.1, Term.AllLossless.written_eq h.2]

end

/-! ## Values left in place -/

namespace Sql

/-- The value of a cell. -/
def Piece.cell? : Piece → Option Value
  | .cell v => some v
  | _ => none

theorem template_keeps_scalars : template.Keeps (·.cell? = none) where
  token _ _ := rfl
  scalar _ := .ok (List.forall_mem_singleton.2 rfl)

/-- A piece that is not a token, unless it is one that stands for no value. -/
def Piece.Plain : Piece → Prop
  | .token t => t.isPlaceholder = false
  | _ => True

theorem template_keeps_plain : template.Keeps Piece.Plain where
  token _ h := h
  scalar _ := .ok (List.forall_mem_singleton.2 trivial)

/-- Values of a piece, without missing ones. -/
def Piece.values : Piece → List Value
  | .token _ => []
  | .scalar v => if v.isNull then [] else [v]
  | .cell v => Binder.scalarsOf v

/-- A scalar, unless it is missing. -/
def present (v : Value) : List Value := if v.isNull then [] else [v]

theorem template_holds : template.Holds Piece.values present where
  token _ _ := rfl
  null := rfl
  scalar _ := .ok (List.append_nil _)

/-- Fixed tokens hold no values. -/
theorem template_held (ts : List Token) : template.held Piece.values ts = [] := held_fixed (fun _ => rfl) ts

end Sql

open Sql

theorem Value.scalarsOf_eq_collected (v : Value) : Binder.scalarsOf v = v.collected Sql.present := by
  cases v with
  | list items =>
    rw [Binder.scalarsOf, collected]
    induction items with
    | nil => rfl
    | cons v items ih =>
      rw [List.filter_cons, List.flatMap_cons, ih, Sql.present]
      cases v.isNull <;> rfl
  | _ => rfl

mutual

theorem Term.written_eq_collected : ∀ t : Term, t.written = t.collected (fun _ => []) Sql.present
  | .field _ => rfl
  | .literal v => v.scalarsOf_eq_collected
  | .condition c => Condition.written_eq_collected c

theorem Condition.written_eq_collected : ∀ c : Condition, c.written = c.collected (fun _ => []) Sql.present
  | ⟨operator, terms, _⟩ => by
    rw [Condition.written, Condition.collected, Term.allWritten_eq_collected terms]

theorem Term.allWritten_eq_collected : ∀ ts : List Term,
    Term.allWritten ts = Term.allCollected (fun _ => []) Sql.present ts
  | [] => rfl
  | t :: ts => by
    rw [Term.allWritten, Term.allCollected, Term.written_eq_collected t, Term.allWritten_eq_collected ts]

end

/-! ## Statements -/

section

variable (fields : FieldMap)

/-- **A writer keeps to the scalars that a condition has a place for**, in their order. -/
theorem Sql.conditionUnits_holds (c : Condition) : Gathers Piece.values (conditionUnits template fields c) c.written :=
  c.written_eq_collected ▸ conditionUnits_gathers template_holds (fun _ => template_held _) c

variable (condition : Option Condition)

theorem Sql.whereUnits_holds : Gathers Piece.values (whereUnits template fields condition)
    (condition.toList.flatMap Condition.written) := by
  rw [funext Condition.written_eq_collected]
  exact whereUnits_gathers template_holds (fun _ => template_held _) condition

theorem Sql.joinUnits_holds (j : Join) : Gathers Piece.values (joinUnits template fields j) j.condition.written := by
  have hfield : ∀ f, template.held Piece.values (fieldTokens fields f) = [] := fun _ => template_held _
  have hjoin := joinUnits_gathers template_holds hfield j
  rwa [template_held, List.nil_append, ← j.condition.written_eq_collected] at hjoin

theorem Sql.scopeUnits_holds (table : String) (ordering : List OrderBy) (limit offset : Option Nat) :
    Gathers Piece.values (scopeUnits template fields table condition ordering limit offset)
      (condition.toList.flatMap Condition.written) := by
  have hfield : ∀ f, template.held Piece.values (fieldTokens fields f) = [] := fun _ => template_held _
  have hscope := scopeUnits_gathers template_holds hfield table condition ordering limit offset fun _ _ =>
    template_held _
  rw [template_held, List.nil_append, List.append_nil, ite_self] at hscope
  rwa [funext Condition.written_eq_collected]

theorem Select.units_holds (s : Select) : Gathers Piece.values (s.units template fields)
    ((s.joins.map Join.condition ++ s.condition.toList).flatMap Condition.written) := by
  unfold Select.units
  split
  · exact .error _
  · refine .traverse _ (fun j _ => joinUnits_holds fields j) fun joins hjoins =>
      (whereUnits_holds fields s.condition).bind fun rows hrows => ?_
    cases orderTokens fields s.ordering with
    | error f => exact .error f
    | ok order =>
      refine .ok ?_
      rw [List.flatMap_append, List.flatMap_append, List.flatMap_append, Writer.flatMap_fixed, Writer.flatMap_fixed,
        template_held, template_held, hrows, List.nil_append, List.append_nil, List.flatten_eq_flatMap,
        List.flatMap_assoc, List.flatMap_append, List.flatMap_map]
      exact congrArg (· ++ _) hjoins

theorem Update.units_holds (s : Update) : Gathers Piece.values (s.units template fields)
    (s.changes.values.flatMap Binder.scalarsOf ++ s.condition.toList.flatMap Condition.written) := by
  unfold Update.units
  split
  · exact .error _
  · refine .traverse (fun change => Binder.scalarsOf change.2) (fun change _ => .ok ?_) fun changes hchanges =>
      (scopeUnits_holds fields s.condition s.table s.ordering s.limit none).bind fun scope hscope => .ok ?_
    · rw [List.flatMap_append, Writer.flatMap_fixed, template_held, List.nil_append]
      exact List.append_nil _
    · rw [List.flatMap_append, List.flatMap_append, Writer.flatMap_fixed, template_held, template_holds.listed,
        hchanges, hscope, List.nil_append, Dict.values, List.flatMap_map]

theorem Delete.units_holds (s : Delete) : Gathers Piece.values (s.units template fields)
    (s.condition.toList.flatMap Condition.written) := by
  refine (scopeUnits_holds fields s.condition s.table s.ordering s.limit s.offset).bind fun scope hscope => .ok ?_
  rw [List.flatMap_append, Writer.flatMap_fixed, template_held, hscope, List.nil_append]

end

namespace Statement

/-- No piece of a template is a placeholder. -/
theorem pieces_plain (fields : FieldMap) (s : Statement) : Sql.All Piece.Plain (s.units template fields) :=
  s.units_all template_keeps_plain (fun _ => .ok (List.forall_mem_singleton.2 trivial)) fields

/-- Scalars of the rows of a statement, in order. -/
def rowScalars : Statement → List Value
  | select _ => []
  | insert s => (s.rows.flatMap Dict.values).flatMap Binder.scalarsOf
  | update s => s.changes.values.flatMap Binder.scalarsOf
  | delete _ => []

/-- Conditions of a statement, in order. -/
def conditions : Statement → List Condition
  | select s => s.joins.map Join.condition ++ s.condition.toList
  | insert _ => []
  | update s => s.condition.toList
  | delete s => s.condition.toList

/-- Scalars of a statement, in the order in which they are bound. -/
def scalars (s : Statement) : List Value := s.rowScalars ++ s.conditions.flatMap Condition.scalars

/-- Scalars of a statement that its text has a place for. -/
def written (s : Statement) : List Value := s.rowScalars ++ s.conditions.flatMap Condition.written

theorem written_sublist (s : Statement) : s.written.Sublist s.scalars :=
  (List.Sublist.refl _).append (flatMap_sublist Condition.written_sublist s.conditions)

/-- All of a statement is written if all of its conditions are. -/
theorem written_eq {s : Statement} (h : ∀ c ∈ s.conditions, c.Lossless) : s.written = s.scalars :=
  congrArg (s.rowScalars ++ ·) (List.flatMap_congr fun c hc => (h c hc).written_eq)

/-- **A writer keeps to the scalars that a statement has a place for**, in their order, unless it inserts. -/
theorem units_holds (fields : FieldMap) : ∀ s : Statement, (∀ i, s ≠ insert i) →
    Sql.Gathers Piece.values (s.units template fields) s.written
  | select s, _ => s.units_holds fields
  | insert s, h => absurd rfl (h s)
  | update s, _ => s.units_holds fields
  | delete s, _ => s.units_holds fields

end Statement

end BoundSql
