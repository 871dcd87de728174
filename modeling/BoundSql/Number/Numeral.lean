import BoundSql.Number.Binary64
import BoundSql.Text.Digit
/-!
# Numerals

Texts of numbers: whole numbers that fit 64 bits, and decimal numerals with a fraction and an exponent, read exactly
and rounded once.

* `Numeral.toBinary64` : the double nearest to a numeral.
* `Binary64.ofText?` : numerals, infinities and the missing number, letters in either case.
* `Int64.ofText?` : whole numbers from `-2 ^ 63` to `2 ^ 63 - 1`.
-/

namespace BoundSql

/-- The number `± digits · 10 ^ exponent`, where `digits` may lead with zeros. -/
structure Numeral where
  negative : Bool
  digits : List Char
  exponent : Int

namespace Numeral

/-- Double nearest to a numeral.  Only the first digit's weight decides when it is far outside of the finite range. -/
def toBinary64 (n : Numeral) : Binary64 :=
  let digits := n.digits.dropWhile (· = '0')
  let lead := n.exponent + digits.length
  if digits.isEmpty || lead < -323 then Binary64.ofRatio n.negative 0 1
  else if 310 < lead then .infinity n.negative
  else
    let value := Text.decimalValue digits
    Binary64.ofRatio n.negative (value * Nat.pow 10 n.exponent.toNat) (Nat.pow 10 (-n.exponent).toNat)

/-- A sign that may be left out: whether it is a minus, and what follows. -/
def splitSign : List Char → Bool × List Char
  | '-' :: cs => (true, cs)
  | '+' :: cs => (false, cs)
  | cs => (false, cs)

/-- Exponent after its letter: a sign that may be left out, and digits to the end. -/
def exponent? (cs : List Char) : Option Int :=
  let (negative, digits) := splitSign cs
  if digits.isEmpty || !digits.all Char.isDigit then none
  else
    let value := Text.decimalValue digits
    some (if negative then -value else value)

/-- Unsigned numeral: digits with at most one point among or beside them, then an exponent that may be left out. -/
def ofUnsigned? (negative : Bool) (cs : List Char) : Option Numeral :=
  let whole := cs.takeWhile Char.isDigit
  let (fraction, rest) := match cs.dropWhile Char.isDigit with
    | '.' :: rest => (rest.takeWhile Char.isDigit, rest.dropWhile Char.isDigit)
    | rest => ([], rest)
  if whole.isEmpty && fraction.isEmpty then none
  else match rest with
    | [] => some ⟨negative, whole ++ fraction, -fraction.length⟩
    | c :: rest =>
      if c = 'e' || c = 'E' then (exponent? rest).map fun e => ⟨negative, whole ++ fraction, e - fraction.length⟩
      else none

end Numeral

/-- Double that a text names: a numeral, `inf`, `infinity` or `nan`, after a sign that may be left out. -/
def Binary64.ofText? (cs : List Char) : Option Binary64 :=
  let (negative, body) := Numeral.splitSign cs
  let word := String.ofList (body.map Char.toLower)
  if word = "inf" || word = "infinity" then some (.infinity negative)
  else if word = "nan" then some .nan
  else (Numeral.ofUnsigned? negative body).map Numeral.toBinary64

/-- Whole number in a text: a sign that may be left out, and ASCII digits. -/
def intOfText? (cs : List Char) : Option Int :=
  let (negative, digits) := Numeral.splitSign cs
  if digits.isEmpty || !digits.all Char.isDigit then none
  else
    let value := Text.decimalValue digits
    some (if negative then -value else value)

/-- Whether an integer fits 64 bits with a sign. -/
def inInt64 (n : Int) : Bool := Int64.minValue.toInt ≤ n && n ≤ Int64.maxValue.toInt

theorem inInt64_toInt (n : Int64) : inInt64 n.toInt := by
  simp only [inInt64, Bool.and_eq_true, decide_eq_true_eq]
  exact ⟨n.minValue_le_toInt, n.toInt_le⟩

/-- Whole number in a text, if it fits 64 bits. -/
def int64OfText? (cs : List Char) : Option Int64 :=
  (intOfText? cs).bind fun n => if inInt64 n then some (Int64.ofInt n) else none

end BoundSql
