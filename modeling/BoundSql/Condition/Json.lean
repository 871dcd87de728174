import BoundSql.Json.Basic
/-!
# Conditions in JSON

The JSON form of values and conditions.  A record is written as an object with all of its fields, and may also be read
from an array; a term is an object with one member that names its kind.

* `Condition.json`, `Condition.readJson?` : writing and reading.
-/

namespace BoundSql

open Json (Tree)

/-! ## Values -/

namespace Value

mutual

/-- JSON text of a value; a double that is no finite number is null. -/
def json : Value → String
  | .null => "null"
  | .bool b => Json.boolText b
  | .int n => toString n.toInt
  | .float x => Json.layout.text x
  | .text s => Json.quote s
  | .list items => Json.arrayText (jsonAll items)

/-- JSON texts of several values. -/
def jsonAll : List Value → List String
  | [] => []
  | v :: vs => v.json :: jsonAll vs

end

/-- Value of a JSON number: integers outside of the signed range become doubles. -/
def ofNumber : Json.Number → Value
  | .integer n => if inInt64 n then .int (Int64.ofInt n) else .float (Binary64.ofInt n)
  | .float x => .float x

mutual

/-- Value of a syntax tree; an object is none. -/
def ofTree? : (depth : Nat) → Tree → Option Value
  | _, .null => some .null
  | _, .bool b => some (.bool b)
  | _, .number n => (Json.Number.ofText? n).map ofNumber
  | _, .text s => s.map .text
  | depth, .array items => if 0 < depth then (ofTrees? (depth - 1) items).map .list else none
  | _, .object _ => none

/-- Values of several syntax trees. -/
def ofTrees? : (depth : Nat) → List Tree → Option (List Value)
  | _, [] => some []
  | depth, t :: ts => do
    let v ← ofTree? depth t
    let vs ← ofTrees? depth ts
    return v :: vs

end

/-- Value of a JSON text. -/
def readJson? (text : String) : Option Value := (Tree.read? text).bind (ofTree? Tree.depthLimit)

end Value

/-! ## Fields and operators -/

namespace FieldRef

/-- JSON text of a reference; a missing qualifier is left out. -/
def json (f : FieldRef) : String :=
  let entity := match f.entity with
    | some entity => [Json.memberText "entity" (Json.quote entity)]
    | none => []
  Json.objectText (entity ++ [Json.memberText "field" (Json.quote f.field)])

/-- A name that may be null or left out. -/
def optionalText? : Option Tree → Option (Option String)
  | none | some .null => some none
  | some t => t.text?.map some

/-- Reference of a syntax tree. -/
def ofTree? (depth : Nat) (t : Tree) : Option FieldRef := do
  if depth = 0 then none
  else
    let fields ← t.fields? ["entity", "field"]
    let entity ← optionalText? (fields "entity")
    let field ← (← fields "field").text?
    return ⟨entity, field⟩

/-- Reference of a JSON text. -/
def readJson? (text : String) : Option FieldRef := (Tree.read? text).bind (ofTree? Tree.depthLimit)

end FieldRef

namespace Operator

/-- JSON text of an operator. -/
def json (o : Operator) : String := Json.quote o.name

/-- Operator of a syntax tree. -/
def ofTree? (depth : Nat) (t : Tree) : Option Operator := (t.alternative? depth).bind ofName?

/-- Operator of a JSON text. -/
def readJson? (text : String) : Option Operator := (Tree.read? text).bind (ofTree? Tree.depthLimit)

end Operator

/-! ## Terms and conditions -/

mutual

/-- JSON text of a term. -/
def Term.json : Term → String
  | .literal v => Json.objectText [Json.memberText "literal" v.json]
  | .field f => Json.objectText [Json.memberText "field" f.json]
  | .condition c => Json.objectText [Json.memberText "expression" c.json]

/-- JSON text of a condition. -/
def Condition.json : Condition → String
  | ⟨operator, terms, negated⟩ =>
    Json.objectText
      [Json.memberText "kind" operator.json, Json.memberText "terms" (Json.arrayText (Term.jsonAll terms)),
        Json.memberText "negated" (Json.boolText negated)]

/-- JSON texts of several terms. -/
def Term.jsonAll : List Term → List String
  | [] => []
  | t :: ts => t.json :: Term.jsonAll ts

end

mutual

/-- Term of a syntax tree. -/
def Term.ofTree? : (depth : Nat) → Tree → Option Term
  | depth + 1, .object [⟨some kind, content⟩] =>
    if kind = "literal" then (Value.ofTree? depth content).map .literal
    else if kind = "field" then (FieldRef.ofTree? depth content).map .field
    else if kind = "expression" then (Condition.ofTree? depth content).map .condition
    else none
  | _, _ => none
termination_by structural depth => depth

/-- Condition of a syntax tree; terms may be left out, and it is not negated unless it says so. -/
def Condition.ofTree? : (depth : Nat) → Tree → Option Condition
  | depth + 1, t => do
    let fields ← t.fields? ["kind", "terms", "negated"]
    let operator ← Operator.ofTree? depth (← fields "kind")
    let terms ← (fields "terms").elim (some []) (Term.listOfTree? depth)
    let negated ← (fields "negated").elim (some false) Tree.bool?
    return ⟨operator, terms, negated⟩
  | _, _ => none
termination_by structural depth => depth

/-- Terms of a syntax tree. -/
def Term.listOfTree? : (depth : Nat) → Tree → Option (List Term)
  | depth + 1, .array items => items.mapM (Term.ofTree? depth)
  | _, _ => none
termination_by structural depth => depth

end

/-- Term of a JSON text. -/
def Term.readJson? (text : String) : Option Term := (Tree.read? text).bind (Term.ofTree? Tree.depthLimit)

/-- Condition of a JSON text. -/
def Condition.readJson? (text : String) : Option Condition :=
  (Tree.read? text).bind (Condition.ofTree? Tree.depthLimit)

end BoundSql
