import BoundSql.FieldMap
import BoundSql.Json.Basic
import BoundSql.Sql.Statement
import Std.Data.HashMap.Basic
import Std.Data.TreeMap.Basic
/-!
# Records

Where the values of a row come from: a record, a map of either kind, or JSON.  Mapped fields are looked up one by one,
and what is found makes a row of column values.

* `FieldSource` : the two questions that a source of field values answers.
* `Row.ofSource` : the row of a source; missing fields are passed over, lists are refused.
-/

namespace BoundSql

/-- Field values in order. -/
abbrev Record := Dict Value

/-- A source of field values. -/
class FieldSource (σ : Type) where
  /-- Value under a key; `keyNotFound` if there is none. -/
  field : σ → String → Except Failure Value
  /-- Whether there is something under a key. -/
  hasField : σ → String → Bool

namespace FieldSource

/-- Answer of a look-up. -/
def found (key : String) (value : Option Value) : Except Failure Value := value.elim (.error (.keyNotFound key)) .ok

instance : FieldSource Record where
  field record key := found key (record.get? key)
  hasField record key := record.contains key

instance : FieldSource (Std.HashMap String Value) where
  field map key := found key map[key]?
  hasField map key := map.contains key

instance : FieldSource (Std.TreeMap String Value) where
  field map key := found key map[key]?
  hasField map key := map.contains key

/-- Member of an object; anything else holds no fields. -/
def jsonField (json : Json) (key : String) : Except Failure Value :=
  match json with
  | .object members => (members.lookup key).elim (.error (.keyNotFound key)) Json.value
  | other => .error (.notContainer other.render)

/-- Whether an object has a member. -/
def jsonHasField (json : Json) (key : String) : Bool :=
  match json with
  | .object members => (members.lookup key).isSome
  | _ => false

instance : FieldSource Json where
  field := jsonField
  hasField := jsonHasField

end FieldSource

namespace Row

/-- Value of one field for a row: none if the source lacks it. -/
def cell {σ : Type} [FieldSource σ] (source : σ) (field : String) : Except Failure (Option Value) :=
  match FieldSource.field source field with
  | .ok (.list _) => .error (.listInField field)
  | .ok v => .ok (some v)
  | .error f => if f.isNotFound then .ok none else .error f

/-- Cells of the given fields put into a row, under their columns. -/
def addCells {σ : Type} [FieldSource σ] (source : σ) (row : Row) : List (String × String) → Except Failure Row
  | [] => .ok row
  | (field, column) :: rest => do
    match ← cell source field with
    | some v => addCells source (row.insert column v) rest
    | none => addCells source row rest

/-- Row of the mapped fields that a source has. -/
def ofSource {σ : Type} [FieldSource σ] (fields : FieldMap) (source : σ) : Except Failure Row :=
  addCells source Dict.empty fields.entries

end Row

end BoundSql
