import BoundSql.Failure
import BoundSql.Number.Numeral
import BoundSql.Text.Blank
/-!
# Normal forms of values

The canonical text that literals are told apart by, and the integers and lists that conditions on identifiers need.

* `Value.canonical` : an integer, a double and a text may share their canonical text.
* `Value.integer` : integers, whole doubles, and texts that hold either.
-/

namespace BoundSql

/-- Integer of a whole double from `-2 ^ 63` to `2 ^ 63`; the upper end goes to the largest 64-bit integer. -/
def Binary64.toInt64? (x : Binary64) : Option Int64 :=
  x.toInt?.bind fun n =>
    let greatest := Int64.maxValue.toInt
    if Int64.minValue.toInt ≤ n ∧ n ≤ greatest + 1 then some (Int64.ofInt (min n greatest)) else none

namespace Value

/-- Text that literals are compared by. -/
def canonical : Value → Except Failure String
  | .int n => .ok (toString n.toInt)
  | .float x => if x.isFinite then .ok (Layout.plain.text x) else .error (.nonFiniteText x)
  | .text s => .ok s
  | .bool b => .ok (if b then "1" else "0")
  | .null => .error .nullText
  | .list _ => .error .listText

/-- Integer that a text holds between blanks, written as an integer or as a numeral of a whole number. -/
def integerOfText? (s : String) : Option Int64 :=
  let cs := Text.trimChars s.toList
  (int64OfText? cs).or ((Binary64.ofText? cs).bind Binary64.toInt64?)

/-- Integer that a value stands for. -/
def integer : Value → Except Failure Int64
  | .int n => .ok n
  | .float x => x.toInt64?.elim (.error (.notWhole x)) .ok
  | .text s => (integerOfText? s).elim (.error (.textNotInteger s)) .ok
  | v => .error (.notInteger v)

/-- Items of a list value. -/
def items : Value → Except Failure (List Value)
  | .list vs => .ok vs
  | v => .error (.notList v)

/-- Integers that the items of a list value stand for. -/
def integers (v : Value) : Except Failure (List Int64) := do (← v.items).mapM integer

end Value

end BoundSql
