import BoundSql.Sql.Condition
import BoundSql.Sql.Statement
/-!
# Statements in SQL

How the four kinds of statements are written, by any writer.  An update or a delete of a limited or ordered part of its
rows goes through their row numbers.

* `Select.units`, `Insert.units`, `Update.units`, `Delete.units` : the units, or why the statement has none.
* `Select.tokens`, `Insert.tokens`, `Update.tokens`, `Delete.tokens` : the tokens.
-/

namespace BoundSql

open Sql (Token Tokens Context Writer)

variable {τ : Type}

namespace Sql

/-! ## Clauses -/

/-- Condition of the rows that a statement is about. -/
def whereUnits (w : Writer τ) (fields : FieldMap) : Option Condition → Except Failure (List τ)
  | some c => (w.token (.keyword .where) :: ·) <$> conditionUnits w fields c
  | none => .ok []

/-- Word for a direction. -/
def directionKeyword : Direction → Keyword
  | .ascending => .asc
  | .descending => .desc

/-- One ordering criterion; its field must be mapped. -/
def criterionTokens (fields : FieldMap) (o : OrderBy) : Tokens :=
  match fields.column? o.field with
  | some column => .ok (nameTokens column ++ [.keyword (directionKeyword o.direction)])
  | none => .error (.unknownOrdering o.field)

/-- Order of the rows. -/
def orderTokens (fields : FieldMap) (ordering : List OrderBy) : Tokens :=
  if ordering.isEmpty then .ok []
  else do
    let parts ← ordering.mapM (criterionTokens fields)
    return .keyword .order :: .keyword .by :: separated .comma parts

/-- Count of the rows, and of those passed over; without a limit of its own an offset comes with one that is
unbounded. -/
def limitTokens : Option Nat → Option Nat → List Token
  | none, none => []
  | some limit, none => [.keyword .limit, .integer limit]
  | none, some offset => [.keyword .limit, .integer (-1), .keyword .offset, .integer offset]
  | some limit, some offset => [.keyword .limit, .integer limit, .keyword .offset, .integer offset]

/-- Rows that an update or a delete is about. -/
def scopeUnits (w : Writer τ) (fields : FieldMap) (table : String) (condition : Option Condition)
    (ordering : List OrderBy) (limit offset : Option Nat) : Except Failure (List τ) := do
  let rows ← whereUnits w fields condition
  if ordering.isEmpty && limit.isNone && offset.isNone then return rows
  else
    let order ← orderTokens fields ordering
    let inner := w.fixed ([.keyword .select, .keyword .rowid, .keyword .from] ++ nameTokens table) ++ rows ++
      w.fixed (order ++ limitTokens limit offset)
    return w.fixed [.keyword .where, .keyword .rowid, .keyword .in] ++ w.parenthesized inner

/-- A table with its alias. -/
def tableTokens (t : TableRef) : List Token :=
  match t.aliasName with
  | some a => nameTokens t.name ++ .keyword .as :: nameTokens a
  | none => nameTokens t.name

/-- Words for a kind of join. -/
def joinKeywords : JoinKind → List Token
  | .inner => [.keyword .inner, .keyword .join]
  | .left => [.keyword .left, .keyword .join]

/-- A joined table with its condition. -/
def joinUnits (w : Writer τ) (fields : FieldMap) (j : Join) : Except Failure (List τ) :=
  (w.fixed (joinKeywords j.kind ++ tableTokens j.table ++ [.keyword .on]) ++ ·) <$>
    conditionUnits w fields j.condition

end Sql

open Sql

/-! ## Statements -/

/-- Columns and tables of a selection; without fields it has every column. -/
def Select.head (s : Select) : List Token :=
  let columns := if s.fields.isEmpty then [.star] else
    separated .comma (s.fields.entries.map fun e => nameTokens e.2 ++ .keyword .as :: nameTokens e.1)
  .keyword .select :: columns ++ .keyword .from :: separated .comma (s.tables.map tableTokens)

/-- Units of a selection. -/
def Select.units (s : Select) (w : Writer τ) (fields : FieldMap) : Except Failure (List τ) := do
  if s.tables.isEmpty then .error .noTable
  else
    let joins ← s.joins.mapM (joinUnits w fields)
    let rows ← whereUnits w fields s.condition
    let order ← orderTokens fields s.ordering
    return w.fixed s.head ++ joins.flatten ++ rows ++ w.fixed (order ++ limitTokens s.limit s.offset)

/-- Values of one row under the given columns. -/
def Insert.rowUnits (w : Writer τ) (columns : List String) (row : Row) : Except Failure (List τ) := do
  let cells ← columns.mapM fun column => (row.get? column).elim (.ok (w.fixed [.keyword .null])) w.cell
  return w.parenthesized (w.listed cells)

/-- Units of an insertion; a single row without columns takes the defaults. -/
def Insert.units (s : Insert) (w : Writer τ) : Except Failure (List τ) :=
  let head := [.keyword .insert, .keyword .into] ++ nameTokens s.table
  match s.rows with
  | [] => .error .noRow
  | [_] =>
    if s.columns.isEmpty then .ok (w.fixed (head ++ [.keyword .default, .keyword .values])) else filled head
  | _ => if s.columns.isEmpty then .error .noColumn else filled head
where
  filled (head : List Token) : Except Failure (List τ) := do
    let columns := .openParen :: separated .comma (s.columns.map nameTokens) ++ [.closeParen]
    let rows ← s.rows.mapM (Insert.rowUnits w s.columns)
    return w.fixed (head ++ columns ++ [.keyword .values]) ++ w.listed rows

/-- One assignment. -/
def Update.assignmentUnits (w : Writer τ) (change : String × Value) : Except Failure (List τ) :=
  (w.fixed (nameTokens change.1 ++ [.sign .equal]) ++ ·) <$> w.cell change.2

/-- Units of an update. -/
def Update.units (s : Update) (w : Writer τ) (fields : FieldMap) : Except Failure (List τ) := do
  if s.changes.isEmpty then .error .noAssignment
  else
    let assignments ← s.changes.entries.mapM (Update.assignmentUnits w)
    let scope ← scopeUnits w fields s.table s.condition s.ordering s.limit none
    return w.fixed (.keyword .update :: nameTokens s.table ++ [.keyword .set]) ++ w.listed assignments ++ scope

/-- Units of a removal. -/
def Delete.units (s : Delete) (w : Writer τ) (fields : FieldMap) : Except Failure (List τ) := do
  let scope ← scopeUnits w fields s.table s.condition s.ordering s.limit s.offset
  return w.fixed ([.keyword .delete, .keyword .from] ++ nameTokens s.table) ++ scope

/-! ## Tokens -/

/-- Tokens of a selection. -/
def Select.tokens (s : Select) (ctx : Context) : Tokens := s.units ctx.writer ctx.fields

/-- Tokens of an insertion. -/
def Insert.tokens (s : Insert) (ctx : Context) : Tokens := s.units ctx.writer

/-- Tokens of an update. -/
def Update.tokens (s : Update) (ctx : Context) : Tokens := s.units ctx.writer ctx.fields

/-- Tokens of a removal. -/
def Delete.tokens (s : Delete) (ctx : Context) : Tokens := s.units ctx.writer ctx.fields

end BoundSql
