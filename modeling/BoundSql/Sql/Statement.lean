import BoundSql.FieldMap
/-!
# Statements

What the four kinds of SQL statements are made of, before a literal has become a placeholder.
-/

namespace BoundSql

/-- Direction of an ordering. -/
inductive Direction where
  | ascending
  | descending
  deriving DecidableEq

/-- Name of a direction in written orderings. -/
def Direction.name : Direction → String
  | .ascending => "asc"
  | .descending => "desc"

/-- Direction of a name. -/
def Direction.ofName? (s : String) : Option Direction := [.ascending, .descending].find? (·.name = s)

/-- One ordering criterion: a field, and a direction. -/
structure OrderBy where
  field : String
  direction : Direction
  deriving DecidableEq

/-- A table, and the alias that references may use for it. -/
structure TableRef where
  name : String
  aliasName : Option String
  deriving DecidableEq

/-- Which rows of the left side a join keeps. -/
inductive JoinKind where
  | inner
  | left
  deriving DecidableEq

/-- Name of a kind of join in written joins. -/
def JoinKind.name : JoinKind → String
  | .inner => "inner"
  | .left => "left"

/-- Kind of join of a name. -/
def JoinKind.ofName? (s : String) : Option JoinKind := [.inner, .left].find? (·.name = s)

/-- A joined table, and the condition it is joined on. -/
structure Join where
  kind : JoinKind
  table : TableRef
  condition : Condition

/-- Column values of one row. -/
abbrev Row := Dict Value

/-- Rows of some tables; every column is given the name of its field. -/
structure Select where
  fields : FieldMap
  tables : List TableRef
  joins : List Join
  condition : Option Condition
  ordering : List OrderBy
  limit : Option Nat
  offset : Option Nat

/-- New rows; a column that a row lacks is left null. -/
structure Insert where
  table : String
  columns : List String
  rows : List Row

/-- New values for the columns of some rows. -/
structure Update where
  table : String
  changes : Row
  condition : Option Condition
  ordering : List OrderBy
  limit : Option Nat

/-- Rows to be removed. -/
structure Delete where
  table : String
  condition : Option Condition
  ordering : List OrderBy
  limit : Option Nat
  offset : Option Nat

end BoundSql
