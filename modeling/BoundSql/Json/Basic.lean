import BoundSql.Json.Syntax
import BoundSql.Failure
/-!
# JSON values

JSON without the order and the repetition of members: the members of an object are sorted by key, and of a repeated
key the last member counts.

* `Json.ofTree?` : the value of a syntax tree, within the limits of depth and of numbers.
* `Json.text` : the compact text of a value.
* `Json.value` : a JSON value as a literal; an object is carried as its text.
-/

namespace BoundSql

/-- A JSON value; the keys of an object ascend. -/
inductive Json where
  | null
  | bool (b : Bool)
  | number (n : Json.Number)
  | text (s : String)
  | array (items : List Json)
  | object (members : List (String × Json))

namespace Json

instance : Inhabited Json := ⟨.null⟩

/-! ## Reading -/

/-- Members with one more: it takes the place of a member with its key, or its place among the sorted keys. -/
def insertMember (key : String) (value : Json) : List (String × Json) → List (String × Json)
  | [] => [(key, value)]
  | m :: ms =>
    if key < m.1 then (key, value) :: m :: ms
    else if key = m.1 then (key, value) :: ms
    else m :: insertMember key value ms

mutual

/-- Value of a syntax tree within `depth` further brackets and braces. -/
def ofTree? : (depth : Nat) → Tree → Option Json
  | _, .null => some .null
  | _, .bool b => some (.bool b)
  | _, .number n => (Number.ofText? n).map .number
  | _, .text s => s.map .text
  | depth, .array items => if 0 < depth then (ofTrees? (depth - 1) items).map .array else none
  | depth, .object members => if 0 < depth then (ofMembers? (depth - 1) [] members).map .object else none

/-- Values of the items of an array. -/
def ofTrees? : (depth : Nat) → List Tree → Option (List Json)
  | _, [] => some []
  | depth, t :: ts => do
    let v ← ofTree? depth t
    let vs ← ofTrees? depth ts
    return v :: vs

/-- Members of an object put among those that came before. -/
def ofMembers? : (depth : Nat) → (done : List (String × Json)) → List Member → Option (List (String × Json))
  | _, done, [] => some done
  | depth, done, ⟨key, value⟩ :: ms =>
    match key, ofTree? depth value with
    | some k, some v => ofMembers? depth (insertMember k v done) ms
    | _, _ => none

end

/-- Value of a text. -/
def read? (text : String) : Option Json := (Tree.read? text).bind (ofTree? Tree.depthLimit)

/-! ## Writing -/

/-- Doubles in JSON: an exponent is written outside of five leading zeros and sixteen digits, and what is no finite
number is null. -/
def layout : Layout where
  tie := .toEven
  positional e := -5 ≤ e && e < 16
  wholeMark := ".0"
  upMark := "e+"
  nan := "null"
  infinity := "null"
  negativeInfinity := "null"

/-- A character between quotes. -/
def quoteChar (c : Char) : List Char :=
  if c = '\x22' then ['\\', '\x22']
  else if c = '\\' then ['\\', '\\']
  else if c = '\x08' then ['\\', 'b']
  else if c = '\x0c' then ['\\', 'f']
  else if c = '\n' then ['\\', 'n']
  else if c = '\r' then ['\\', 'r']
  else if c = '\t' then ['\\', 't']
  else if c < ' ' then ['\\', 'u', '0', '0'] ++ Text.hexDigits 2 c.toNat
  else [c]

/-- Text between quotes. -/
def quote (s : String) : String := String.ofList ('\x22' :: s.toList.flatMap quoteChar ++ ['\x22'])

/-- Text of an array of written items. -/
def arrayText (items : List String) : String := "[" ++ ",".intercalate items ++ "]"

/-- Text of a member with a written value. -/
def memberText (key : String) (value : String) : String := quote key ++ ":" ++ value

/-- Text of an object of written members. -/
def objectText (members : List String) : String := "\x7b" ++ ",".intercalate members ++ "\x7d"

/-- Text of a truth value. -/
def boolText (b : Bool) : String := if b then "true" else "false"

mutual

/-- Compact text of a value. -/
def render : Json → String
  | .null => "null"
  | .bool b => boolText b
  | .number (.integer n) => toString n
  | .number (.float x) => layout.text x
  | .text s => quote s
  | .array items => arrayText (renderAll items)
  | .object members => objectText (renderMembers members)

/-- Texts of several values. -/
def renderAll : List Json → List String
  | [] => []
  | v :: vs => v.render :: renderAll vs

/-- Texts of members. -/
def renderMembers : List (String × Json) → List String
  | [] => []
  | (key, v) :: ms => memberText key v.render :: renderMembers ms

end

/-! ## Literals -/

mutual

/-- Literal of a JSON value; an integer above the signed range has none. -/
def value : Json → Except Failure Value
  | .null => .ok .null
  | .bool b => .ok (.bool b)
  | .number (.integer n) => if inInt64 n then .ok (.int (Int64.ofInt n)) else .error (.integerOutOfRange n.toNat)
  | .number (.float x) => .ok (.float x)
  | .text s => .ok (.text s)
  | .array items => .list <$> values items
  | .object members => .ok (.text (render (.object members)))

/-- Literals of several JSON values. -/
def values : List Json → Except Failure (List Value)
  | [] => .ok []
  | v :: vs => do
    let x ← v.value
    return x :: (← values vs)

end

end Json

end BoundSql
