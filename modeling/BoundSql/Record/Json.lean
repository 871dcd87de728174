import BoundSql.Condition.Json
import BoundSql.Record
/-!
# Records and clauses in JSON

The JSON form of field maps and records, which are objects with members in order, and of tables, orderings and joins.

* `Dict.json`, `Dict.ofTree?` : of a repeated key the last value counts, in the place of the first.
-/

namespace BoundSql

open Json (Tree)

/-- JSON text of a dictionary whose values are written by `write`. -/
def Dict.json {α : Type} (write : α → String) (d : Dict α) : String :=
  Json.objectText (d.entries.map fun e => Json.memberText e.1 (write e.2))

/-- Member of an object with its value read. -/
def Dict.entryOfMember? {α : Type} (read : Tree → Option α) (m : Json.Member) : Option (String × α) := do
  return (← m.key, ← read m.value)

/-- Dictionary of an object whose values are read by `read`, within `depth` brackets and braces. -/
def Dict.ofTree? {α : Type} (read : (depth : Nat) → Tree → Option α) : (depth : Nat) → Tree → Option (Dict α)
  | depth + 1, .object members => (members.mapM (Dict.entryOfMember? (read depth))).map Dict.ofList
  | _, _ => none

/-- JSON text of a field map. -/
def FieldMap.json (map : FieldMap) : String := Dict.json Json.quote map

/-- Field map of a JSON text. -/
def FieldMap.readJson? (text : String) : Option FieldMap :=
  (Tree.read? text).bind (Dict.ofTree? (fun _ => Tree.text?) Tree.depthLimit)

/-- JSON text of a record. -/
def Record.json (record : Record) : String := Dict.json Value.json record

/-- Record of a JSON text. -/
def Record.readJson? (text : String) : Option Record :=
  (Tree.read? text).bind (Dict.ofTree? Value.ofTree? Tree.depthLimit)

/-! ## Clauses -/

/-- JSON text of a table; a missing alias is left out. -/
def TableRef.json (t : TableRef) : String :=
  let aliasName := match t.aliasName with
    | some a => [Json.memberText "alias" (Json.quote a)]
    | none => []
  Json.objectText (Json.memberText "name" (Json.quote t.name) :: aliasName)

/-- Table of a syntax tree. -/
def TableRef.ofTree? (depth : Nat) (t : Tree) : Option TableRef := do
  if depth = 0 then none
  else
    let fields ← t.fields? ["name", "alias"]
    let name ← (← fields "name").text?
    let aliasName ← FieldRef.optionalText? (fields "alias")
    return ⟨name, aliasName⟩

/-- Table of a JSON text. -/
def TableRef.readJson? (text : String) : Option TableRef := (Tree.read? text).bind (ofTree? Tree.depthLimit)

/-- JSON text of an ordering criterion. -/
def OrderBy.json (o : OrderBy) : String :=
  Json.objectText
    [Json.memberText "field" (Json.quote o.field), Json.memberText "direction" (Json.quote o.direction.name)]

/-- Ordering criterion of a JSON text; it ascends unless it says otherwise. -/
def OrderBy.readJson? (text : String) : Option OrderBy := do
  let fields ← (← Tree.read? text).fields? ["field", "direction"]
  let field ← (← fields "field").text?
  let direction ← (fields "direction").elim (some .ascending) fun t =>
    (t.alternative? (Tree.depthLimit - 1)).bind Direction.ofName?
  return ⟨field, direction⟩

/-- JSON text of a join. -/
def Join.json (j : Join) : String :=
  Json.objectText [Json.memberText "kind" (Json.quote j.kind.name), Json.memberText "table" j.table.json,
    Json.memberText "on" j.condition.json]

/-- Join of a JSON text; it is an inner one unless it says otherwise. -/
def Join.readJson? (text : String) : Option Join := do
  let fields ← (← Tree.read? text).fields? ["kind", "table", "on"]
  let kind ← (fields "kind").elim (some .inner) fun t =>
    (t.alternative? (Tree.depthLimit - 1)).bind JoinKind.ofName?
  let table ← TableRef.ofTree? (Tree.depthLimit - 1) (← fields "table")
  let condition ← Condition.ofTree? (Tree.depthLimit - 1) (← fields "on")
  return ⟨kind, table, condition⟩

end BoundSql
