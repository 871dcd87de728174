import BoundSql.Sql.Statement
/-!
# The recording store

A store that runs nothing: it keeps every call that it receives, and answers from a script.  An unscripted query finds
no rows, and an unscripted statement affects one.

* `Recorder.query`, `Recorder.execute` : one call and its answer.
* `Recorder.executeEach` : changes in order, up to the first failure.
-/

namespace BoundSql

/-- What a call asks for: rows, or a change. -/
inductive CallKind where
  | query
  | execute
  deriving DecidableEq

/-- Name of a kind of call. -/
def CallKind.name : CallKind → String
  | .query => "query"
  | .execute => "execute"

/-- A statement and its arguments, in the order of their positions. -/
structure Call where
  kind : CallKind
  sql : String
  args : List Value

/-- What a change reports: how many rows it affected, and the identifier that the store gave to a new one. -/
structure Outcome where
  affected : Nat
  insertId : Option Int64
  deriving DecidableEq

/-- Calls that were made, and answers that are still to be given; a failure is a message. -/
structure Recorder where
  calls : Array Call
  rows : List (Except String (List Row))
  outcomes : List (Except String Outcome)

namespace Recorder

/-- No calls and no script. -/
def empty : Recorder := ⟨#[], [], []⟩

instance : Inhabited Recorder := ⟨empty⟩

/-! ## Script -/

/-- One more answer to a query. -/
def scriptRows (r : Recorder) (answer : Except String (List Row)) : Recorder := { r with rows := r.rows ++ [answer] }

/-- One more answer to a change. -/
def scriptOutcome (r : Recorder) (answer : Except String Outcome) : Recorder :=
  { r with outcomes := r.outcomes ++ [answer] }

/-- One more answer to an insertion of a single row. -/
def scriptInsertId (r : Recorder) (id : Int64) : Recorder := r.scriptOutcome (.ok ⟨1, some id⟩)

/-! ## Calls -/

/-- The recorder with one more call. -/
def record (r : Recorder) (call : Call) : Recorder := { r with calls := r.calls.push call }

/-- An answer of the script, or the answer that stands in for it. -/
def answer {α : Type} (unscripted : α) : List (Except String α) → Except Failure α
  | [] => .ok unscripted
  | .ok a :: _ => .ok a
  | .error message :: _ => .error (.execution message)

/-- A query and its answer. -/
def query (r : Recorder) (sql : String) (args : List Value) : Except Failure (List Row) × Recorder :=
  (answer [] r.rows, { r.record ⟨.query, sql, args⟩ with rows := r.rows.tail })

/-- A change and its answer. -/
def execute (r : Recorder) (sql : String) (args : List Value) : Except Failure Outcome × Recorder :=
  (answer ⟨1, none⟩ r.outcomes, { r.record ⟨.execute, sql, args⟩ with outcomes := r.outcomes.tail })

/-- SQL text with its arguments. -/
structure Request where
  sql : String
  args : List Value

/-- One change for each item, in order.  A change that cannot be prepared and one that the store refuses both end the
run. -/
def executeEach {α : Type} (prepare : α → Except Failure Request) (r : Recorder) :
    List α → Except Failure (List Outcome) × Recorder
  | [] => (.ok [], r)
  | item :: items =>
    match prepare item with
    | .error f => (.error f, r)
    | .ok request =>
      match r.execute request.sql request.args with
      | (.error f, r) => (.error f, r)
      | (.ok o, r) =>
        let (outcomes, r) := executeEach prepare r items
        ((o :: ·) <$> outcomes, r)

end Recorder

/-- Rows affected by several changes. -/
def Outcome.totalAffected (outcomes : List Outcome) : Nat := outcomes.foldr (fun o n => o.affected + n) 0

end BoundSql
