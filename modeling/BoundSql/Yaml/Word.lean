import BoundSql.Number.Numeral
/-!
# Words that are no text

What a plain scalar without a tag stands for: nothing, a truth value, a number, or just its text.  Whole numbers may
have one of three bases, and no decimal number leads with a zero.

* `Word.ofText` : what a plain scalar stands for.
-/

namespace BoundSql.Yaml

/-- What a plain scalar stands for. -/
inductive Word where
  | null
  | bool (b : Bool)
  | integer (n : Int)
  | float (x : Binary64)
  | text
  deriving DecidableEq

namespace Word

/-- Whether a text stands for nothing. -/
def isNull (s : String) : Bool := ["", "~", "null", "Null", "NULL"].contains s

/-- Truth value of a text. -/
def bool? (s : String) : Option Bool :=
  if ["true", "True", "TRUE"].contains s then some true
  else if ["false", "False", "FALSE"].contains s then some false
  else none

/-- Whether a text begins with a sign. -/
def isSigned (cs : List Char) : Bool := cs.head? = some '+' || cs.head? = some '-'

/-- Whether a text, after a sign or not, is more than one digit of which the first is zero. -/
def leadsWithZero (cs : List Char) : Bool :=
  let digits := if isSigned cs then cs.drop 1 else cs
  decide (1 < digits.length) && digits.head? = some '0' && digits.all Char.isDigit

/-- Number that digits denote in a base up to sixteen. -/
def digitsOfBase? (base : Nat) (cs : List Char) : Option Nat :=
  if cs.isEmpty then none
  else cs.foldlM (fun n c => (Text.hexValue? c).bind fun d => if d < base then some (base * n + d) else none) 0

/-- Base that the letter behind a zero announces. -/
def base? : Char → Option Nat
  | 'x' => some 16
  | 'o' => some 8
  | 'b' => some 2
  | _ => none

/-- Number without a sign, in the base that its beginning announces. -/
def magnitude? (cs : List Char) : Option Nat :=
  if leadsWithZero cs then none
  else match cs with
    | '0' :: letter :: digits =>
      match base? letter with
      | some base => digitsOfBase? base digits
      | none => none
    | _ => digitsOfBase? 10 cs

/-- Count of the whole numbers of 128 bits. -/
def wideSize : Nat := UInt64.size * UInt64.size

/-- Whole number in a text, if it fits 128 bits with or without a sign. -/
def integer? (cs : List Char) : Option Int :=
  match cs with
  | '-' :: digits => (magnitude? digits).bind fun n => if n ≤ wideSize / 2 then some (-n) else none
  | _ =>
    (magnitude? (if cs.head? = some '+' then cs.drop 1 else cs)).bind fun n =>
      if n < wideSize then some (n : Int) else none

/-- Whole number that a text denotes, if it has no minus and fits 64 bits. -/
def natural? (s : String) : Option Nat :=
  match s.toList with
  | '-' :: _ => none
  | cs => (integer? cs).bind fun n => if n < UInt64.size then some n.toNat else none

/-- Double in a text: a numeral of a finite number, zeros in front or not, or one of the words for the others. -/
def float? (s : String) : Option Binary64 :=
  let unsigned := if s.toList.head? = some '+' then s.toList.drop 1 else s.toList
  let unsignedText := String.ofList unsigned
  if s.toList.head? = some '+' && isSigned unsigned then none
  else if [".inf", ".Inf", ".INF"].contains unsignedText then some (.infinity false)
  else if ["-.inf", "-.Inf", "-.INF"].contains s then some (.infinity true)
  else if [".nan", ".NaN", ".NAN"].contains s then some .nan
  else (Binary64.ofText? unsigned).filter Binary64.isFinite

/-- What a plain scalar stands for. -/
def ofText (s : String) : Word :=
  if isNull s then .null
  else match bool? s, integer? s.toList, float? s with
    | some b, _, _ => .bool b
    | none, some n, _ => .integer n
    | none, none, some x => if leadsWithZero s.toList then .text else .float x
    | none, none, none => .text

end Word

end BoundSql.Yaml
