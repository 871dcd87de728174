import BoundSql.Number.Shortest
/-!
# Number layouts

How the sign, the shortest digits and the exponent of a double are put down as text.  Each written format of this
library fixes one `Layout` beside its writer; here is what they share.

* `Layout.text` : the text of a double in a layout.
* `Layout.plain` : digits and at most a point, for messages and for the texts that literals are compared by.
-/

namespace BoundSql

/-- A way to write doubles. -/
structure Layout where
  /-- Choice between two equally near shortest decimals. -/
  tie : Decimal.Tie
  /-- Exponents of the leading digit for which no exponent is written. -/
  positional : Int → Bool
  /-- What follows the digits of a whole number without an exponent. -/
  wholeMark : String
  /-- Mark in front of an exponent that is not negative. -/
  upMark : String
  nan : String
  infinity : String
  negativeInfinity : String

namespace Layout

/-- Digits of a decimal, least significant exponent `exponent`, with the point in its place. -/
def positionalText (wholeMark : String) (d : Decimal) : String :=
  let digits := d.digits.repr.toList
  if 0 ≤ d.exponent then String.ofList (digits ++ List.replicate d.exponent.toNat '0') ++ wholeMark
  else
    let places := (-d.exponent).toNat
    if places < digits.length then
      String.ofList (digits.take (digits.length - places) ++ '.' :: digits.drop (digits.length - places))
    else "0." ++ String.ofList (List.replicate (places - digits.length) '0' ++ digits)

/-- One digit, the others behind a point, and the exponent of the first. -/
def scientificText (upMark : String) (d : Decimal) : String :=
  let digits := d.digits.repr.toList
  let lead := d.exponent + (digits.length - 1 : Nat)
  let fraction := if digits.length = 1 then [] else '.' :: digits.drop 1
  let mark := if lead < 0 then "e-" else upMark
  String.ofList (digits.take 1 ++ fraction) ++ mark ++ lead.natAbs.repr

/-- Text of a positive decimal. -/
def decimalText (l : Layout) (d : Decimal) : String :=
  if l.positional (d.exponent + (d.digits.repr.length - 1 : Nat)) then positionalText l.wholeMark d
  else scientificText l.upMark d

/-- Text of a double; a zero keeps its sign. -/
def text (l : Layout) : Binary64 → String
  | .nan => l.nan
  | .infinity negative => if negative then l.negativeInfinity else l.infinity
  | .finite negative units _ =>
    (if negative then "-" else "") ++
      (if units = 0 then "0" ++ l.wholeMark else l.decimalText (Decimal.shortest l.tie units))

/-- Never an exponent, and no point in a whole number. -/
def plain : Layout where
  tie := .awayFromZero
  positional _ := true
  wholeMark := ""
  upMark := "e"
  nan := "NaN"
  infinity := "inf"
  negativeInfinity := "-inf"

end Layout

end BoundSql
