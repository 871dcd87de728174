import BoundSql.Condition
import BoundSql.Yaml.Content
import BoundSql.Yaml.Node.Printer
/-!
# Conditions in YAML

Values and conditions as YAML nodes.  A plain scalar is what its word stands for, and any other scalar is a text.  The
kind of a term is a tag in front of it.

* `Condition.node`, `Condition.ofNode?` : writing and reading.
-/

namespace BoundSql

open Yaml (Node Reading Tag Word)

/-! ## Values -/

namespace Value

mutual

/-- Node of a value. -/
def node : Value → Node
  | .null => Node.word "null"
  | .bool b => Node.ofBool b
  | .int n => Node.ofInt n.toInt
  | .float x => Node.ofFloat x
  | .text s => Node.ofText s
  | .list items => .sequence none (nodes items)

/-- Nodes of several values. -/
def nodes : List Value → List Node
  | [] => []
  | v :: vs => v.node :: nodes vs

end

/-- Value of an integer: what fits 64 bits only without a sign becomes a double. -/
def ofInteger? (n : Int) : Option Value :=
  if inInt64 n then some (.int (Int64.ofInt n))
  else if 0 ≤ n && n < UInt64.size then some (.float (Binary64.ofInt n))
  else none

/-- Value of a plain scalar. -/
def ofWord? (s : String) : Option Value :=
  match Word.ofText s with
  | .null => some .null
  | .bool b => some (.bool b)
  | .integer n => ofInteger? n
  | .float x => some (.float x)
  | .text => some (.text s)

/-- Value of a scalar with a tag.  The tag of a type makes it a value of that type, a tag of the document's own must
have no name and says nothing of a plain scalar, and any other makes it a text. -/
def ofTagged? (tag : Tag) (plain : Bool) (s : String) : Option Value :=
  if tag.name?.isSome then none
  else if tag = Tag.common "bool" then (Word.bool? s).map .bool
  else if tag = Tag.common "int" then (Word.integer? s.toList).bind ofInteger?
  else if tag = Tag.common "float" then (Word.float? s).map .float
  else if tag = Tag.common "null" then if Word.isNull s && !s.isEmpty then some .null else none
  else if tag.isOwn && plain then ofWord? s
  else some (.text s)

/-- Value of a node, whose tag may have served its purpose, where `readItem` reads an item of a sequence.  A mapping is
no value, and a sequence is none if no collection may be open. -/
def ofContent? (depth : Nat) (readItem : Node → Reading Value) (tagRead : Bool) (n : Node) : Reading Value := do
  match ← n.follow with
  | .scalar tag style s =>
    match tag.filter fun _ => !tagRead with
    | some tag => ofTagged? tag (style = .plain) s
    | none => if style = .plain then ofWord? s else return .text s
  | .sequence tag items =>
    if depth = 0 || (!tagRead && (tag.bind Tag.name?).isSome) then failure else .list <$> items.mapM readItem
  | _ => failure

/-- Value of a node, whose tag may have served its purpose. -/
def ofNode? : (depth : Nat) → (tagRead : Bool) → Node → Reading Value
  | 0 => ofContent? 0 fun _ => failure
  | depth + 1 => ofContent? (depth + 1) (ofNode? depth false)

end Value

/-! ## Fields and operators -/

namespace FieldRef

/-- Node of a reference. -/
def node (f : FieldRef) : Node := .record (Node.optionalText "entity" f.entity ++ [("field", Node.ofText f.field)])

/-- Reference of a node. -/
def ofNode? (depth : Nat) (n : Node) : Reading FieldRef := do
  let fields ← n.fields? depth false ["entity", "field"]
  let entity ← Node.maybe? Node.text? (fields "entity")
  let field ← (← fields "field").text?
  return ⟨entity, field⟩

end FieldRef

/-! ## Terms and conditions -/

mutual

/-- Node of a term. -/
def Term.node : Term → Node
  | .literal v => v.node.tagged (Tag.ofText "!literal")
  | .field f => f.node.tagged (Tag.ofText "!field")
  | .condition c => c.node.tagged (Tag.ofText "!expression")

/-- Node of a condition. -/
def Condition.node : Condition → Node
  | ⟨operator, terms, negated⟩ =>
    .record [("kind", Node.word operator.name), ("terms", .sequence none (Term.nodes terms)),
      ("negated", Node.ofBool negated)]

/-- Nodes of several terms. -/
def Term.nodes : List Term → List Node
  | [] => []
  | t :: ts => t.node :: Term.nodes ts

end

/-- Term of a node, where `readCondition` reads conditions. -/
def Term.ofNode? (readCondition : Node → Reading Condition) (depth : Nat) (n : Node) : Reading Term := do
  let n ← n.follow
  match n.tag.bind Tag.name? with
  | some "literal" => .literal <$> Value.ofNode? depth true n
  | some "field" => .field <$> FieldRef.ofNode? depth n
  | some "expression" => .condition <$> readCondition n
  | _ => failure

/-- Condition of a node, where `readTerm` reads a term.  Terms may be left out, and it is not negated unless it says
so. -/
def Condition.ofContent? (depth : Nat) (readTerm : Node → Reading Term) (n : Node) : Reading Condition := do
  let fields ← n.fields? depth false ["kind", "terms", "negated"]
  let operator ← Operator.ofName? (← (← fields "kind").alternative?)
  let items ← (fields "terms").elim (pure []) (Node.items? (depth - 1))
  let terms ← items.mapM readTerm
  let negated ← (fields "negated").elim (pure false) Node.bool?
  return ⟨operator, terms, negated⟩

/-- Condition of a node. -/
def Condition.ofNode? : (depth : Nat) → Node → Reading Condition
  | depth + 2 => Condition.ofContent? (depth + 2) (Term.ofNode? (Condition.ofNode? depth) depth)
  | depth => Condition.ofContent? depth fun _ => failure

end BoundSql
