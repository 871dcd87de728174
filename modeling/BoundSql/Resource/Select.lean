import BoundSql.Bindings.Binder
import BoundSql.Sql.Render
import BoundSql.Store.Recorder
/-!
# Selecting

A selector reads the rows of its tables.  A text that names a mapped field stands for that field and is never bound.

* `Selector.request` : the query, whose joins come before the condition in the order of the arguments too.
* `Selector.select` : the query made.
-/

namespace BoundSql

open Recorder (Request)

/-- Text and arguments of a statement whose literals are bound. -/
def Sql.request (tokens : Sql.Context → Sql.Tokens) (values : Bindings) (fields : FieldMap) : Except Failure Request :=
  (fun ts => ⟨Sql.render ts, values.args⟩) <$> tokens ⟨values, fields⟩

/-- What rows are read from, and how. -/
structure Selector where
  tables : List TableRef
  joins : List Join
  fields : FieldMap
  binder : Binder

namespace Selector

/-- Selector of one table. -/
def ofTable (table : TableRef) (fields : FieldMap) (style : Placeholder.Style) : Selector where
  tables := [table]
  joins := []
  fields := fields
  binder := (Binder.ofStyle style).ignoring fields.fields

/-- The query for the rows that satisfy a condition. -/
def request (s : Selector) (condition : Option Condition) (ordering : List OrderBy) (limit offset : Option Nat) :
    Except Failure Request := do
  let values ← (s.binder.bindConditions Bindings.empty (s.joins.map Join.condition ++ condition.toList)).toExcept
  let statement : Select := ⟨s.fields, s.tables, s.joins, condition, ordering, limit, offset⟩
  Sql.request statement.tokens values s.fields

/-- Rows that satisfy a condition. -/
def select (s : Selector) (condition : Option Condition) (ordering : List OrderBy) (limit offset : Option Nat)
    (store : Recorder) : Except Failure (List Row) × Recorder :=
  match s.request condition ordering limit offset with
  | .error f => (.error f, store)
  | .ok request => store.query request.sql request.args

end Selector

end BoundSql
