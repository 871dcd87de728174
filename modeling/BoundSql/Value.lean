import BoundSql.Number.Layout
/-!
# Values

Literal values of conditions and records: scalars, and lists of values for membership tests.

* `Value.display` : the text of a value in messages.
* `Value.sameAs` : equality that compares numbers numerically.
-/

namespace BoundSql

/-- A literal value. -/
inductive Value where
  | null
  | bool (b : Bool)
  | int (n : Int64)
  | float (x : Binary64)
  | text (s : String)
  | list (items : List Value)

/-- Type that a placeholder announces for its value. -/
inductive TypeTag where
  | integer
  | float
  | string
  deriving DecidableEq

/-- Conversion letter of a type. -/
def TypeTag.letter : TypeTag → Char
  | .integer => 'd'
  | .float => 'f'
  | .string => 's'

namespace Value

instance : Inhabited Value := ⟨.null⟩

/-- Whether a value is missing. -/
def isNull : Value → Bool
  | .null => true
  | _ => false

/-- Whether a value is a list. -/
def isList : Value → Bool
  | .list _ => true
  | _ => false

/-- Whether a value is the list without items. -/
def isEmptyList : Value → Bool
  | .list items => items.isEmpty
  | _ => false

/-- Numbers announce their own type, and everything else a text. -/
def typeTag : Value → TypeTag
  | .int _ => .integer
  | .float _ => .float
  | _ => .string

/-! ## Text in messages -/

mutual

/-- Text of a value in messages. -/
def display : Value → String
  | .null => "null"
  | .bool b => if b then "true" else "false"
  | .int n => toString n.toInt
  | .float x => Layout.plain.text x
  | .text s => "\x27" ++ s ++ "\x27"
  | .list items => "[" ++ ", ".intercalate (displayAll items) ++ "]"

/-- Texts of several values. -/
def displayAll : List Value → List String
  | [] => []
  | v :: vs => v.display :: displayAll vs

end

/-! ## Numeric equality -/

mutual

/-- Same constructor and same content, where doubles are compared as numbers. -/
def sameAs : Value → Value → Bool
  | .null, .null => true
  | .bool a, .bool b => a == b
  | .int a, .int b => a == b
  | .float a, .float b => a.sameNumber b
  | .text a, .text b => a == b
  | .list as, .list bs => allSame as bs
  | _, _ => false

/-- Equally many values, each the same as its partner. -/
def allSame : List Value → List Value → Bool
  | [], [] => true
  | a :: as, b :: bs => a.sameAs b && allSame as bs
  | _, _ => false

end

end Value

end BoundSql
