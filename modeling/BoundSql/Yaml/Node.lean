import BoundSql.Yaml.Tag
/-!
# YAML nodes

A YAML document as a tree of scalars, sequences and mappings, with the tags that stand in front of them.  A reference
names another node of the document by a number.

* `Node.size` : the count of the parts of a node.
-/

namespace BoundSql.Yaml

mutual

/-- A scalar, a collection, or a reference to an anchored node. -/
inductive Node where
  | scalar (tag : Option Tag) (style : Style) (text : String)
  | sequence (tag : Option Tag) (items : List Node)
  | mapping (tag : Option Tag) (members : List Member)
  | reference (number : Nat)

/-- A member of a mapping. -/
structure Member where
  key : Node
  value : Node

end

namespace Node

/-- What stands where nothing is written. -/
def empty : Node := .scalar none .plain ""

instance : Inhabited Node := ⟨empty⟩

/-- Tag of a node. -/
def tag : Node → Option Tag
  | .scalar tag _ _ | .sequence tag _ | .mapping tag _ => tag
  | .reference _ => none

/-- Node with another tag; a reference has none. -/
def tagged (tag : Tag) : Node → Node
  | .scalar _ style text => .scalar (some tag) style text
  | .sequence _ items => .sequence (some tag) items
  | .mapping _ members => .mapping (some tag) members
  | .reference number => .reference number

mutual

/-- Count of the parts of a node, where the beginning and the end of a collection are parts. -/
def size : Node → Nat
  | .scalar _ _ _ | .reference _ => 1
  | .sequence _ items => itemsSize items + 2
  | .mapping _ members => membersSize members + 2

/-- Count of the parts of several nodes. -/
def itemsSize : List Node → Nat
  | [] => 0
  | item :: items => item.size + itemsSize items

/-- Count of the parts of several members. -/
def membersSize : List Member → Nat
  | [] => 0
  | member :: members => memberSize member + membersSize members

/-- Count of the parts of a member. -/
def memberSize : Member → Nat
  | ⟨key, value⟩ => key.size + value.size

end

end Node

end BoundSql.Yaml
