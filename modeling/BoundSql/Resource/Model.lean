import BoundSql.Config
import BoundSql.Resource.Delete
import BoundSql.Resource.Update
/-!
# Resources

The four operations over one table definition.

* `Resource.ofConfig` : the resource of a configuration that passes its checks.
* `Resource.ofParts` : the resource of any configuration, with identifiers resolved in a way of the caller's choice.
-/

namespace BoundSql

/-- Selecting, inserting, updating and deleting for one resource. -/
structure Resource where
  selector : Selector
  inserter : Inserter
  updater : Updater
  deleter : Deleter

namespace Resource

/-- Selector of a configuration, with its further tables and its joins. -/
def selectorOf (c : Config) : Selector :=
  { Selector.ofTable c.table c.fields c.placeholders with tables := c.table :: c.tables, joins := c.joins }

/-- Resource whose updates and deletes find their rows in the given ways. -/
def assemble (c : Config) (updating deleting : Targeting) : Resource where
  selector := selectorOf c
  inserter := Inserter.ofTable c.table.name c.fields c.placeholders c.insertMode
  updater := Updater.ofTable c.table.name c.fields c.placeholders updating
  deleter := Deleter.ofTable c.table.name c.fields c.placeholders deleting

/-- The way that a mode of a configuration stands for. -/
def targetingOf (c : Config) : TargetMode → Except Config.Fault Targeting
  | .direct => .ok .direct
  | .byIdentifier => c.identifier.elim (.error .noIdentifier) fun identifier => .ok (Targeting.ofIdentifier identifier)

/-- Resource of a configuration that passes its checks. -/
def ofConfig (c : Config) : Except Config.Fault Resource := do
  c.check
  let updating ← targetingOf c c.updateMode
  let deleting ← targetingOf c c.deleteMode
  return assemble c updating deleting

/-- Identifying field of a configuration, or the field that stands in for it. -/
def identifierOf (c : Config) : FieldRef := c.identifier.getD (FieldRef.bare "id")

/-- The way that a mode stands for, with the identifying field of the configuration or the one that stands in for it. -/
def freeTargetingOf (c : Config) : TargetMode → Targeting
  | .direct => .direct
  | .byIdentifier => Targeting.ofIdentifier (identifierOf c)

/-- Resource of a configuration that is not checked.  With a way to resolve identifiers of its own, it finds rows by
them whatever the modes say. -/
def ofParts (c : Config) (resolve : Option (Condition → Except Failure (List Int64))) : Resource :=
  match resolve with
  | some resolve =>
    assemble c (.byIdentifier (identifierOf c) resolve) (.byIdentifier (identifierOf c) resolve)
  | none => assemble c (freeTargetingOf c c.updateMode) (freeTargetingOf c c.deleteMode)

end Resource

end BoundSql
