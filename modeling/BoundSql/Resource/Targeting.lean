import BoundSql.Condition.Identifiers
import BoundSql.Sql.Statement
/-!
# Targeting

How an update or a delete finds its rows: through the condition itself, or through the identifiers that it names.

* `Targeting.ofIdentifier` : identifiers as conditions name them.
-/

namespace BoundSql

/-- Names of the two ways in configurations. -/
inductive TargetMode where
  | direct
  | byIdentifier
  deriving DecidableEq

/-- Name of a mode. -/
def TargetMode.name : TargetMode → String
  | .direct => "direct"
  | .byIdentifier => "by_identifier"

/-- Mode of a name. -/
def TargetMode.ofName? (s : String) : Option TargetMode := [.direct, .byIdentifier].find? (·.name = s)

/-- The rows that one statement is about. -/
structure Target where
  condition : Condition
  ordering : List OrderBy
  limit : Option Nat
  offset : Option Nat

/-- All rows that satisfy a condition. -/
def Target.all (condition : Condition) : Target := ⟨condition, [], none, none⟩

/-- A way to find rows. -/
inductive Targeting where
  /-- The condition goes into the statement. -/
  | direct
  /-- The identifiers that `resolve` finds in a condition go into the statements, as values of one field. -/
  | byIdentifier (identifier : FieldRef) (resolve : Condition → Except Failure (List Int64))

namespace Targeting

/-- Rows found by the identifiers that a condition names. -/
def ofIdentifier (identifier : FieldRef) : Targeting := .byIdentifier identifier (Condition.identifiers identifier)

/-- The identifying field, without the qualifier that it has in conditions. -/
def fieldOf (identifier : FieldRef) : FieldRef := FieldRef.bare identifier.field

/-- Which of the two ways it is. -/
def mode : Targeting → TargetMode
  | .direct => .direct
  | .byIdentifier .. => .byIdentifier

end Targeting

end BoundSql
