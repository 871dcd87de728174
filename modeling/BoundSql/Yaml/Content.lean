import BoundSql.Yaml.Document
import BoundSql.Yaml.Word
/-!
# Contents of nodes

A node as what is expected of it: a text, a truth value, a list, a record of known fields.  A reference is followed
where its node is made use of, and a document has a limit of references that are followed.  Collections are made use of
only within a limit of depth.

* `Document.contents?` : what is read of a document.
* `Node.follow` : the node that a reference stands for.
* `Node.fields?` : the fields of a record, written as a mapping.
* `Node.optional?` : a node that may say that there is nothing.
-/

namespace BoundSql.Yaml

/-- What may be read where the nodes that references stand for are known, and so many more of them may be followed. -/
abbrev Reading (α : Type) : Type := ReaderT (Nat → Option Node) (StateT Nat Option) α

/-- References that may be followed for each part of a document. -/
def referencesPerPart : Nat := 100

/-- What is read of a document. -/
def Document.contents? {α : Type} (read : Node → Reading α) (d : Document) : Option α :=
  ((read d.root).run d.target?).run' (referencesPerPart * d.root.size)

namespace Node

/-- Most collections that may be open around a node that is made use of. -/
def depthLimit : Nat := 128

/-- The node that a reference stands for; any other node stands for itself. -/
def follow : Node → Reading Node
  | .reference number => do
    match ← get, (← read) number with
    | left + 1, some n =>
      set left
      return n
    | _, _ => failure
  | n => return n

/-- Whether nothing is written; that is also how an empty collection may be written. -/
def isBlank : Node → Bool
  | .scalar _ .plain text => text.isEmpty
  | _ => false

/-- Text of a scalar, whatever it might stand for. -/
def text? (n : Node) : Reading String := do
  match ← n.follow with
  | .scalar _ _ text => return text
  | _ => failure

/-- Text of a scalar that is no quoted text: it is plain, or a block with the tag of a type. -/
def word? (type : String) (n : Node) : Reading String := do
  match ← n.follow with
  | .scalar _ .plain text => return text
  | .scalar tag .literal text => if tag = some (Tag.common type) then return text else failure
  | _ => failure

/-- Truth value. -/
def bool? (n : Node) : Reading Bool := do Word.bool? (← n.word? "bool")

/-- Whole number without a minus. -/
def natural? (n : Node) : Reading Nat := do Word.natural? (← n.word? "int")

/-- The node, or nothing if it says so. -/
def optional? (n : Node) : Reading (Option Node) := do
  match ← n.follow with
  | .scalar none .plain text => return if Word.isNull text then none else some (.scalar none .plain text)
  | .scalar (some tag) .plain text =>
    if tag ≠ Tag.common "null" then return some (.scalar tag .plain text)
    else if Word.isNull text && !text.isEmpty then return none
    else failure
  | n => return some n

/-- What may be null or left out, as `read` reads it otherwise. -/
def maybe? {α : Type} (read : Node → Reading α) : Option Node → Reading (Option α)
  | none => return none
  | some n => do
    match ← n.optional? with
    | some n => some <$> read n
    | none => return none

/-- Items of a sequence. -/
def items? (depth : Nat) (n : Node) : Reading (List Node) := do
  match ← n.follow with
  | .sequence _ items => if 0 < depth then return items else failure
  | n => if n.isBlank then return [] else failure

/-- Keys and values of a mapping whose keys are scalars. -/
def entries? (depth : Nat) (n : Node) : Reading (List (String × Node)) := do
  match ← n.follow with
  | .mapping _ members =>
    if 0 < depth then members.mapM fun m => return (← m.key.text?, m.value) else failure
  | n => if n.isBlank then return [] else failure

/-- Fields of a record of known names, where each may come once and others matter only if the record is closed. -/
def fields? (depth : Nat) (closed : Bool) (names : List String) (n : Node) : Reading (String → Option Node) := do
  let entries ← n.entries? depth
  let keys := entries.map Prod.fst
  if (closed && !keys.all names.contains) || names.any fun name => 1 < keys.count name then failure
  else return fun name => entries.lookup name

/-- Name of a plain alternative: a text, or a tag of the document in front of nothing. -/
def alternative? (n : Node) : Reading String := do
  match ← n.follow with
  | .scalar tag style text =>
    match tag.bind Tag.name? with
    | some name => if style = .plain && Word.isNull text then return name else failure
    | none => return text
  | _ => failure

end Node

end BoundSql.Yaml
