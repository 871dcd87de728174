import BoundSql.Record
import BoundSql.Resource.Select
import BoundSql.Resource.Targeting
/-!
# Updating

An updater changes the rows of its table that a condition selects.  A condition is always needed.  With identifiers
there is one statement for each, in the order in which the condition names them.

* `Updater.targets` : the rows that each statement is about.
* `Updater.update` : the changes read from their source, and the statements made.
-/

namespace BoundSql

open Recorder (Request)

/-- What rows are changed in, and how.  New values are bound as they are; the texts of a condition that name fields
are not bound. -/
structure Updater where
  table : String
  fields : FieldMap
  valueBinder : Binder
  conditionBinder : Binder
  targeting : Targeting

namespace Updater

/-- Updater of a table. -/
def ofTable (table : String) (fields : FieldMap) (style : Placeholder.Style) (targeting : Targeting) : Updater :=
  ⟨table, fields, Binder.ofStyle style, (Binder.ofStyle style).ignoring fields.fields, targeting⟩

/-- One statement; the new values come before the condition in the order of the arguments too. -/
def request (u : Updater) (changes : Row) (target : Target) : Except Failure Request := do
  let values ← (u.valueBinder.bindValues Bindings.empty changes.values).toExcept
  let values ← (u.conditionBinder.bindCondition values target.condition).toExcept
  let statement : Update := ⟨u.table, changes, some target.condition, target.ordering, target.limit⟩
  Sql.request statement.tokens values u.fields

/-- Targets of the statements that change the rows of a target. -/
def targets (u : Updater) (target : Target) : Except Failure (List Target) :=
  match u.targeting with
  | .direct => .ok [target]
  | .byIdentifier identifier resolve =>
    if target.condition.negated then .error .negatedUpdate
    else do
      let ids ← resolve target.condition
      if ids.isEmpty then .error .noIdentifier
      else return ids.map fun id => Target.all (Condition.equalTo (Targeting.fieldOf identifier) (.int id))

/-- New column values of a source of changes; there must be some. -/
def changes {σ : Type} [FieldSource σ] (u : Updater) (source : σ) : Except Failure Row := do
  let row ← Row.ofSource u.fields source
  if row.isEmpty then .error .noMappedChange else return row

/-- What an update does: new column values, and the targets of its statements. -/
def prepare {σ : Type} [FieldSource σ] (u : Updater) (source : σ) (condition : Option Condition)
    (ordering : List OrderBy) (limit : Option Nat) : Except Failure (Row × List Target) :=
  match condition with
  | none => .error (.conditionRequired .update)
  | some c => do
    let row ← u.changes source
    let targets ← u.targets ⟨c, ordering, limit, none⟩
    return (row, targets)

/-- Rows changed; the count of those that were affected. -/
def update {σ : Type} [FieldSource σ] (u : Updater) (source : σ) (condition : Option Condition)
    (ordering : List OrderBy) (limit : Option Nat) (store : Recorder) : Except Failure Nat × Recorder :=
  match u.prepare source condition ordering limit with
  | .error f => (.error f, store)
  | .ok (row, targets) =>
    let (outcomes, store) := store.executeEach (u.request row) targets
    (Outcome.totalAffected <$> outcomes, store)

end Updater

end BoundSql
