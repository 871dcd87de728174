import BoundSql.Placeholder
import BoundSql.Resource.Insert
import BoundSql.Resource.Targeting
/-!
# Configurations

Everything that a resource is assembled from, and the checks that its settings fit together.

* `Config.check` : the first setting that is missing or wrong, if there is one.
* `Config.sameAs` : equality that compares numbers numerically.
-/

namespace BoundSql

/-- Settings of a resource. -/
structure Config where
  table : TableRef
  fields : FieldMap
  identifier : Option FieldRef
  placeholders : Placeholder.Style
  insertMode : InsertMode
  updateMode : TargetMode
  deleteMode : TargetMode
  /-- Further tables that rows are selected from. -/
  tables : List TableRef
  joins : List Join

namespace Config

/-! ## Faults -/

/-- What is wrong with a configuration. -/
inductive Fault where
  /-- The text is no configuration. -/
  | unreadable
  | missingVersion
  | unsupportedVersion (found : Nat)
  | noTableName
  | emptyAlias (table : String)
  | emptyJoin (table : String)
  | noFields
  | emptyColumn (field : String)
  | unmappedIdentifier (field : String)
  | identifierRequired
  | noIdentifier
  deriving DecidableEq

/-- Groups of faults. -/
inductive Fault.Kind where
  | unreadable
  | missingVersion
  | unsupportedVersion
  | missingField
  | invalid
  deriving DecidableEq

/-- Versions that are understood. -/
def supportedVersions : List Nat := [1]

namespace Fault

/-- Name of a group. -/
def Kind.name : Kind → String
  | .unreadable => "yaml"
  | .missingVersion => "missing_version"
  | .unsupportedVersion => "unsupported_version"
  | .missingField => "missing_field"
  | .invalid => "invalid"

/-- Group of a fault. -/
def kind : Fault → Kind
  | .unreadable => .unreadable
  | .missingVersion => .missingVersion
  | .unsupportedVersion _ => .unsupportedVersion
  | .noTableName | .noFields | .noIdentifier => .missingField
  | .emptyAlias _ | .emptyJoin _ | .emptyColumn _ | .unmappedIdentifier _ | .identifierRequired => .invalid

/-- Wording for a setting that is missing in a part of a configuration. -/
def missing (setting part : String) : String := "Missing required setting \x27" ++ setting ++ "\x27 in " ++ part

/-- Wording for a part of a configuration that is wrong. -/
def wrong (part reason : String) : String := "Invalid " ++ part ++ ": " ++ reason

/-- Wording of a fault. -/
def message : Fault → String
  | .unreadable => "unreadable text"
  | .missingVersion =>
    "Missing \x27version\x27 field in resource configuration. Add \x27version: 1\x27 to the top of your YAML file."
  | .unsupportedVersion found =>
    "Unsupported configuration version " ++ toString found ++ ". Supported versions: " ++
      ", ".intercalate (supportedVersions.map toString)
  | .noTableName => missing "table" "TableRef"
  | .emptyAlias table => wrong "TableRef" ("empty alias for table \x27" ++ table ++ "\x27")
  | .emptyJoin table => wrong "Join" ("join on \x27" ++ table ++ "\x27 has an empty ON condition")
  | .noFields => missing "fields" "ResourceConfig"
  | .emptyColumn field => wrong "ResourceConfig" ("field \x27" ++ field ++ "\x27 maps to an empty column")
  | .unmappedIdentifier field => wrong "ResourceConfig" ("identifier \x27" ++ field ++ "\x27 is not a mapped field")
  | .identifierRequired => wrong "ResourceConfig" "by_identifier modes require an \x27identifier\x27"
  | .noIdentifier => missing "identifier" "ResourceConfig"

end Fault

end Config

/-! ## Checks -/

/-- Parts of a configuration that can be checked. -/
class Checked (α : Type) where
  /-- Name of the part. -/
  part : String
  /-- First thing that is wrong. -/
  check : α → Except Config.Fault Unit

instance : Checked TableRef where
  part := "TableRef"
  check t := do
    if Text.allBlank t.name then .error .noTableName
    else if t.aliasName.any Text.allBlank then .error (.emptyAlias t.name)
    else .ok ()

instance : Checked Join where
  part := "Join"
  check j := do
    Checked.check j.table
    if j.condition.terms.isEmpty then .error (.emptyJoin j.table.name) else .ok ()

instance {α : Type} [Checked α] : Checked (List α) where
  part := "Config"
  check parts := parts.forM Checked.check

instance {α : Type} [Checked α] : Checked (Option α) where
  part := "Config"
  check part := part.forM Checked.check

namespace Config

/-- Checks of the fields, once the tables and joins are right. -/
def checkFields (c : Config) : Except Fault Unit :=
  if c.fields.isEmpty then .error .noFields
  else match c.fields.entries.find? fun e => Text.allBlank e.2 with
    | some e => .error (.emptyColumn e.1)
    | none => .ok ()

/-- Checks of the identifying field. -/
def checkIdentifier (c : Config) : Except Fault Unit :=
  match c.identifier with
  | some identifier =>
    if c.fields.contains identifier.field then .ok () else .error (.unmappedIdentifier identifier.field)
  | none =>
    if c.updateMode = .byIdentifier || c.deleteMode = .byIdentifier then .error .identifierRequired else .ok ()

instance : Checked Config where
  part := "ResourceConfig"
  check c := do
    Checked.check c.table
    Checked.check c.tables
    Checked.check c.joins
    c.checkFields
    c.checkIdentifier

/-- First thing that is wrong with a configuration. -/
def check (c : Config) : Except Fault Unit := Checked.check c

/-! ## Numeric equality -/

/-- Equality of joins, numbers compared numerically. -/
def sameJoins : List Join → List Join → Bool
  | [], [] => true
  | a :: as, b :: bs => a.kind = b.kind && a.table = b.table && a.condition.sameAs b.condition && sameJoins as bs
  | _, _ => false

/-- Whether two field maps have the same entries, in whatever order. -/
def sameFields (a b : FieldMap) : Bool := a.size = b.size && a.entries.all fun e => b.get? e.1 = some e.2

/-- Equality of configurations, numbers compared numerically and fields in whatever order. -/
def sameAs (a b : Config) : Bool :=
  a.table = b.table && sameFields a.fields b.fields && a.identifier = b.identifier &&
    a.placeholders = b.placeholders && a.insertMode = b.insertMode && a.updateMode = b.updateMode &&
    a.deleteMode = b.deleteMode && a.tables = b.tables && sameJoins a.joins b.joins

end Config

end BoundSql
