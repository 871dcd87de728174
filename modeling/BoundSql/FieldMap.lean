import BoundSql.Dict
import BoundSql.Failure
/-!
# Field maps

Which column each field of a resource is stored in.  The order of the fields is that of selected columns and of
inserted ones.

* `FieldMap.ofPairs` : a map from pairs, where no field may come twice.
-/

namespace BoundSql

/-- Columns by field name. -/
abbrev FieldMap := Dict String

namespace FieldMap

/-- Pairs added one after the other to a map; a field that is there already is refused. -/
def addPairs (map : FieldMap) : List (String × String) → Except Failure FieldMap
  | [] => .ok map
  | (field, column) :: rest =>
    if map.contains field then .error (.duplicateField field) else addPairs (map.insert field column) rest

/-- Map of some pairs. -/
def ofPairs (pairs : List (String × String)) : Except Failure FieldMap := addPairs Dict.empty pairs

/-- Column of a field. -/
def column? (map : FieldMap) (field : String) : Option String := map.get? field

/-- Column of the field that a text names. -/
def named? (map : FieldMap) : Value → Option String
  | .text s => map.column? s
  | _ => none

/-- Mapped fields, in order. -/
def fields (map : FieldMap) : List String := map.keys

/-- Columns, in the order of their fields. -/
def columns (map : FieldMap) : List String := map.values

end FieldMap

end BoundSql
