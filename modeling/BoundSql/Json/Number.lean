import BoundSql.Json.Token
/-!
# JSON numbers

The number that a written number stands for.  Integers of 64 bits, with or without a sign, are exact.  Every other
number becomes a double: the digits that fit 64 bits make a significand, which is rounded, and then multiplied or
divided by a rounded power of ten, which rounds again.

* `Number.ofText?` : the number, unless it is too large for a double.
* `Number.scale?` : the second of the two roundings.
-/

namespace BoundSql.Json

/-- A number: an integer from `-2 ^ 63` to `2 ^ 64 - 1`, or a double. -/
inductive Number where
  | integer (n : Int)
  | float (x : Binary64)
  deriving DecidableEq

namespace Number

/-- Digits appended to a significand while it stays below `2 ^ 64`: the result and the count of digits left over. -/
def appendDigits (significand : Nat) : List Char → Nat × Nat
  | [] => (significand, 0)
  | c :: cs =>
    let next := 10 * significand + Text.digitValue c
    if next < UInt64.size then appendDigits next cs else (significand, cs.length + 1)

/-- Greatest power of ten in the table of doubles. -/
def greatestPower : Nat := 308

/-- Double nearest to a power of ten. -/
def powerOfTen (n : Nat) : Binary64 := Binary64.ofRatio false (Nat.pow 10 n) 1

/-- A double times a power of ten, rounded after every step; nothing if it would become infinite. -/
def scale? (x : Binary64) (exponent : Int) : Option Binary64 :=
  if exponent.natAbs ≤ greatestPower then
    let y := if 0 ≤ exponent then x.mul (powerOfTen exponent.natAbs) else x.div (powerOfTen exponent.natAbs)
    if y.isFinite then some y else none
  else if x.sameNumber Binary64.zero then some x
  else if _h : 0 ≤ exponent then none
  else scale? (x.div (powerOfTen greatestPower)) (exponent + greatestPower)
termination_by exponent.natAbs
decreasing_by
  simp only [greatestPower] at *
  omega

/-- Double that a written number stands for. -/
def float? (n : NumberText) : Option Binary64 := do
  let (whole, dropped) := appendDigits 0 n.whole
  let fraction := n.fraction.getD []
  let (significand, left) := appendDigits whole fraction
  let exponent := (dropped : Int) - (fraction.length - left : Nat) + n.exponent.getD 0
  let magnitude ← scale? (Binary64.ofInt significand) exponent
  return if n.negative then magnitude.neg else magnitude

/-- Number that a written number stands for. -/
def ofText? (n : NumberText) : Option Number :=
  let value := Text.decimalValue n.whole
  if n.fraction.isNone && n.exponent.isNone && !n.negative && value < UInt64.size then some (.integer value)
  else if n.fraction.isNone && n.exponent.isNone && n.negative && 0 < value && inInt64 (-value) then
    some (.integer (-value))
  else (float? n).map .float

end Number

end BoundSql.Json
