import BoundSql.Resource.Select
import BoundSql.Resource.Targeting
/-!
# Deleting

A deleter removes the rows of its table that a condition selects.  A condition is always needed.  With identifiers
there is one statement for every thousand of them, and none if the condition names none.

* `Deleter.targets` : the rows that each statement is about.
* `Deleter.delete` : the statements made.
-/

namespace BoundSql

open Recorder (Request)

/-- Most identifiers that one statement lists. -/
def idsPerStatement : Nat := 1000

/-- A list cut into pieces of `n + 1` elements; the last one may be shorter. -/
def chunksOfSucc {α : Type} (n : Nat) (xs : List α) : List (List α) :=
  match xs with
  | [] => []
  | x :: xs => (x :: xs.take n) :: chunksOfSucc n (xs.drop n)
termination_by xs.length
decreasing_by simp only [List.length_drop, List.length_cons]; omega

/-- What rows are removed from, and how. -/
structure Deleter where
  table : String
  fields : FieldMap
  binder : Binder
  targeting : Targeting

namespace Deleter

/-- Deleter of a table. -/
def ofTable (table : String) (fields : FieldMap) (style : Placeholder.Style) (targeting : Targeting) : Deleter :=
  ⟨table, fields, (Binder.ofStyle style).ignoring fields.fields, targeting⟩

/-- One statement. -/
def request (d : Deleter) (target : Target) : Except Failure Request := do
  let values ← (d.binder.bindCondition Bindings.empty target.condition).toExcept
  let statement : Delete := ⟨d.table, some target.condition, target.ordering, target.limit, target.offset⟩
  Sql.request statement.tokens values d.fields

/-- Targets of the statements that remove the rows of a target. -/
def targets (d : Deleter) (target : Target) : Except Failure (List Target) :=
  match d.targeting with
  | .direct => .ok [target]
  | .byIdentifier identifier resolve => do
    let ids ← resolve target.condition
    return (chunksOfSucc (idsPerStatement - 1) ids).map fun chunk =>
      Target.all (Condition.inList (Targeting.fieldOf identifier) (chunk.map .int))

/-- Targets of the statements for a condition, which must be there. -/
def prepare (d : Deleter) (condition : Option Condition) (ordering : List OrderBy) (limit offset : Option Nat) :
    Except Failure (List Target) :=
  match condition with
  | none => .error (.conditionRequired .delete)
  | some c => d.targets ⟨c, ordering, limit, offset⟩

/-- Rows removed; the count of those that were affected. -/
def delete (d : Deleter) (condition : Option Condition) (ordering : List OrderBy) (limit offset : Option Nat)
    (store : Recorder) : Except Failure Nat × Recorder :=
  match d.prepare condition ordering limit offset with
  | .error f => (.error f, store)
  | .ok targets =>
    let (outcomes, store) := store.executeEach d.request targets
    (Outcome.totalAffected <$> outcomes, store)

end Deleter

end BoundSql
