import BoundSql.Condition.Yaml
import BoundSql.Config
/-!
# Configurations in YAML

A configuration is a YAML mapping with a version.  Settings that have a default may be left out, and no other settings
are allowed.  What is read is checked.

* `Config.render` : the text of a configuration.
* `Config.read` : the configuration of a text, or what is wrong with it.
-/

namespace BoundSql

open Yaml (Document Node Reading)

/-! ## Tables and joins -/

namespace TableRef

/-- Node of a table. -/
def node (t : TableRef) : Node := .record (("name", Node.ofText t.name) :: Node.optionalText "alias" t.aliasName)

/-- Table of a node. -/
def ofNode? (depth : Nat) (n : Node) : Reading TableRef := do
  let fields ← n.fields? depth false ["name", "alias"]
  let name ← (← fields "name").text?
  let aliasName ← Node.maybe? Node.text? (fields "alias")
  return ⟨name, aliasName⟩

end TableRef

namespace Join

/-- Node of a join. -/
def node (j : Join) : Node :=
  .record [("kind", Node.word j.kind.name), ("table", j.table.node), ("on", j.condition.node)]

/-- Join of a node; it is an inner join unless it says otherwise. -/
def ofNode? (depth : Nat) (n : Node) : Reading Join := do
  let fields ← n.fields? depth false ["kind", "table", "on"]
  let kind ← (fields "kind").elim (pure .inner) fun n => do JoinKind.ofName? (← n.alternative?)
  let table ← TableRef.ofNode? (depth - 1) (← fields "table")
  let condition ← Condition.ofNode? (depth - 1) (← fields "on")
  return ⟨kind, table, condition⟩

end Join

/-- Node of a field map. -/
def FieldMap.node (fields : FieldMap) : Node :=
  .mapping none (fields.entries.map fun e => ⟨Node.ofText e.1, Node.ofText e.2⟩)

/-- Field map of a node; of a repeated field the last column counts. -/
def FieldMap.ofNode? (depth : Nat) (n : Node) : Reading FieldMap := do
  let entries ← n.entries? depth
  return Dict.ofList (← entries.mapM fun e => return (e.1, ← e.2.text?))

namespace Config

/-! ## Writing -/

/-- Member of a record that is left out where there is nothing in the list. -/
def listMember {α : Type} (name : String) (node : α → Node) (items : List α) : List (String × Node) :=
  if items.isEmpty then [] else [(name, .sequence none (items.map node))]

/-- Node of a configuration. -/
def node (c : Config) : Node :=
  .record <|
    [("version", Node.word "1"), ("table", Node.ofText c.table.name)] ++ Node.optionalText "alias" c.table.aliasName ++
    [("fields", c.fields.node)] ++ (c.identifier.map fun f => ("identifier", f.node)).toList ++
    [("placeholders", Node.word c.placeholders.name), ("insert_mode", Node.word c.insertMode.name),
      ("update_mode", Node.word c.updateMode.name), ("delete_mode", Node.word c.deleteMode.name)] ++
    listMember "tables" TableRef.node c.tables ++ listMember "joins" Join.node c.joins

/-- Text of a configuration. -/
def render (c : Config) : String := c.node.render

/-! ## Reading -/

/-- Names of the settings. -/
def settings : List String :=
  ["version", "table", "alias", "fields", "identifier", "placeholders", "insert_mode", "update_mode", "delete_mode",
    "tables", "joins"]

/-- Version of a configuration, which fits 32 bits. -/
def version? (n : Node) : Reading Nat := do
  let version ← n.natural?
  if version < UInt32.size then return version else failure

/-- Plain alternative with a default. -/
def choice? {α : Type} (ofName? : String → Option α) (default : α) (n : Option Node) : Reading α :=
  n.elim (pure default) fun n => do ofName? (← n.alternative?)

/-- List that may be left out. -/
def list? {α : Type} (depth : Nat) (ofNode? : Nat → Node → Reading α) : Option Node → Reading (List α)
  | none => return []
  | some n => do (← n.items? depth).mapM (ofNode? (depth - 1))

/-- Version and configuration of a node, neither of them checked. -/
def ofNode? (n : Node) : Reading (Option Nat × Config) := do
  let fields ← n.fields? Node.depthLimit true settings
  let depth := Node.depthLimit - 1
  let version ← Node.maybe? version? (fields "version")
  let name ← (← fields "table").text?
  let aliasName ← Node.maybe? Node.text? (fields "alias")
  let fieldMap ← FieldMap.ofNode? depth (← fields "fields")
  let identifier ← Node.maybe? (FieldRef.ofNode? depth) (fields "identifier")
  let placeholders ← choice? Placeholder.Style.ofName? .numbered (fields "placeholders")
  let insertMode ← choice? InsertMode.ofName? .batched (fields "insert_mode")
  let updateMode ← choice? TargetMode.ofName? .direct (fields "update_mode")
  let deleteMode ← choice? TargetMode.ofName? .direct (fields "delete_mode")
  let tables ← list? depth TableRef.ofNode? (fields "tables")
  let joins ← list? depth Join.ofNode? (fields "joins")
  return (version,
    ⟨⟨name, aliasName⟩, fieldMap, identifier, placeholders, insertMode, updateMode, deleteMode, tables, joins⟩)

/-- Checked configuration of a text. -/
def read (text : String) : Except Fault Config :=
  match (Document.ofText? text).bind (Document.contents? ofNode?) with
  | none => .error .unreadable
  | some (none, _) => .error .missingVersion
  | some (some version, c) =>
    if supportedVersions.contains version then c.check.map fun _ => c else .error (.unsupportedVersion version)

end Config

end BoundSql
