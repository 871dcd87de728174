import BoundSql.FirstOccurrences
import BoundSql.Record
import BoundSql.Resource.Select
/-!
# Inserting

An inserter adds records to its table, either all with one statement or one statement for each.  Values are bound as
they are, also those that happen to be field names.

* `Inserter.request` : one statement for some rows.
* `Inserter.insert` : the rows read from their sources, and the statements made.
-/

namespace BoundSql

open Recorder (Request)

/-- How many statements an insertion takes. -/
inductive InsertMode where
  | batched
  | perRecord
  deriving DecidableEq

/-- Name of a mode in configurations. -/
def InsertMode.name : InsertMode → String
  | .batched => "batched"
  | .perRecord => "per_record"

/-- Mode of a name. -/
def InsertMode.ofName? (s : String) : Option InsertMode := [.batched, .perRecord].find? (·.name = s)

/-- What an insertion reports: an identifier for each record if they were added one by one, and the affected rows. -/
structure Insertion where
  ids : List (Option Int64)
  affected : Nat
  deriving DecidableEq

/-- What records are added to, and how. -/
structure Inserter where
  table : String
  fields : FieldMap
  binder : Binder
  mode : InsertMode

namespace Inserter

/-- Inserter of a table. -/
def ofTable (table : String) (fields : FieldMap) (style : Placeholder.Style) (mode : InsertMode) : Inserter :=
  ⟨table, fields, Binder.ofStyle style, mode⟩

/-- One statement for some rows, under every column that one of them has. -/
def request (i : Inserter) (rows : List Row) : Except Failure Request := do
  let values ← (i.binder.bindValues Bindings.empty (rows.flatMap Dict.values)).toExcept
  let statement : Insert := ⟨i.table, firstOccurrences (rows.flatMap Dict.keys), rows⟩
  Sql.request statement.tokens values i.fields

/-- Rows that go into one statement each. -/
def batches (i : Inserter) (rows : List Row) : List (List Row) :=
  match i.mode with
  | .batched => [rows]
  | .perRecord => rows.map ([·])

/-- Report of the statements' outcomes. -/
def report (i : Inserter) (outcomes : List Outcome) : Insertion :=
  match i.mode with
  | .batched => ⟨[], Outcome.totalAffected outcomes⟩
  | .perRecord => ⟨outcomes.map Outcome.insertId, Outcome.totalAffected outcomes⟩

/-- Records added.  Every one of them is read before the first statement is made; no records need no statement. -/
def insert {σ : Type} [FieldSource σ] (i : Inserter) (records : List σ) (store : Recorder) :
    Except Failure Insertion × Recorder :=
  if records.isEmpty then (.ok ⟨[], 0⟩, store)
  else match records.mapM (Row.ofSource i.fields) with
    | .error f => (.error f, store)
    | .ok rows =>
      let (outcomes, store) := store.executeEach i.request (i.batches rows)
      (i.report <$> outcomes, store)

end Inserter

end BoundSql
