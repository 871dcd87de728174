import BoundSql.Number.Numeral
/-!
# JSON tokens

The lexical part of JSON: punctuation, words, numbers and texts, with blanks between them.

* `Token.scan?` : the tokens of a text, or nothing if some part of it is no token.
* `Pieces.text?` : the text of a quoted run, where escaped halves of a surrogate pair must come together.
-/

namespace BoundSql.Json

/-- A number as written: its digits before the point, behind it, and its exponent. -/
structure NumberText where
  negative : Bool
  whole : List Char
  fraction : Option (List Char)
  exponent : Option Int
  deriving DecidableEq

/-- One character between quotes: itself, or an escaped 16-bit unit. -/
inductive Piece where
  | plain (c : Char)
  | unit (n : Nat)
  deriving DecidableEq

/-- A lexical unit of JSON; a text is missing if it escapes half of a surrogate pair alone. -/
inductive Token where
  | openBrace
  | closeBrace
  | openBracket
  | closeBracket
  | colon
  | comma
  | null
  | bool (b : Bool)
  | number (n : NumberText)
  | text (s : Option String)
  deriving DecidableEq

/-! ## Texts -/

namespace Pieces

/-- Whether a unit is the first half of a surrogate pair. -/
def isHigh (n : Nat) : Bool := 0xD800 ≤ n && n < 0xDC00

/-- Whether a unit is the second half of a surrogate pair. -/
def isLow (n : Nat) : Bool := 0xDC00 ≤ n && n < 0xE000

/-- Characters of the pieces, put in front of `done`, which is reversed. -/
def chars? (done : List Char) : List Piece → Option (List Char)
  | [] => some done.reverse
  | .plain c :: rest => chars? (c :: done) rest
  | .unit h :: .unit l :: rest =>
    if isHigh h then
      if isLow l then chars? (Char.ofNat (0x10000 + (h - 0xD800) * 0x400 + (l - 0xDC00)) :: done) rest else none
    else if isLow h then none
    else chars? (Char.ofNat h :: done) (.unit l :: rest)
  | .unit n :: rest => if isHigh n || isLow n then none else chars? (Char.ofNat n :: done) rest

/-- Text of the pieces. -/
def text? (pieces : List Piece) : Option String := (chars? [] pieces).map String.ofList

end Pieces

/-- Number of four hexadecimal digits. -/
def hex4? (a b c d : Char) : Option Nat := do
  let x ← Text.hexValue? a
  let y ← Text.hexValue? b
  let z ← Text.hexValue? c
  let w ← Text.hexValue? d
  return ((x * 16 + y) * 16 + z) * 16 + w

/-- Character that a one-letter escape stands for. -/
def escape? : Char → Option Char
  | '\x22' => some '\x22'
  | '\\' => some '\\'
  | '/' => some '/'
  | 'b' => some '\x08'
  | 'f' => some '\x0c'
  | 'n' => some '\n'
  | 'r' => some '\r'
  | 't' => some '\t'
  | _ => none

/-- Pieces up to the closing quote, after those of `done`, and what follows it. -/
def quoted? (done : List Piece) : List Char → Option (List Piece × List Char)
  | [] => none
  | '\x22' :: rest => some (done.reverse, rest)
  | '\\' :: 'u' :: a :: b :: c :: d :: rest =>
    match hex4? a b c d with
    | some n => quoted? (.unit n :: done) rest
    | none => none
  | '\\' :: e :: rest =>
    match escape? e with
    | some c => quoted? (.plain c :: done) rest
    | none => none
  | c :: rest => if c < ' ' || c = '\\' then none else quoted? (.plain c :: done) rest

/-! ## Numbers -/

/-- Fraction after its point, which needs a digit. -/
def fraction? : List Char → Option (Option (List Char) × List Char)
  | '.' :: rest =>
    let digits := rest.takeWhile Char.isDigit
    if digits.isEmpty then none else some (some digits, rest.dropWhile Char.isDigit)
  | rest => some (none, rest)

/-- Exponent after its letter, which needs a digit. -/
def exponent? (cs : List Char) : Option (Option Int × List Char) :=
  match cs with
  | c :: rest =>
    if c = 'e' || c = 'E' then
      let (negative, rest) := Numeral.splitSign rest
      let digits := rest.takeWhile Char.isDigit
      if digits.isEmpty then none
      else
        let value := Text.decimalValue digits
        some (some (if negative then -value else value), rest.dropWhile Char.isDigit)
    else some (none, cs)
  | [] => some (none, [])

/-- Number after its sign; zero is the only one that begins with a zero. -/
def number? (negative : Bool) (cs : List Char) : Option (Token × List Char) := do
  let whole := cs.takeWhile Char.isDigit
  if whole.isEmpty || (whole.head? = some '0' && 1 < whole.length) then none
  else
    let (fraction, rest) ← fraction? (cs.dropWhile Char.isDigit)
    let (exponent, rest) ← exponent? rest
    return (.number ⟨negative, whole, fraction, exponent⟩, rest)

/-! ## Scanning -/

namespace Token

/-- The token in front of a text, and what follows it. -/
def next? : List Char → Option (Token × List Char)
  | '{' :: rest => some (.openBrace, rest)
  | '}' :: rest => some (.closeBrace, rest)
  | '[' :: rest => some (.openBracket, rest)
  | ']' :: rest => some (.closeBracket, rest)
  | ':' :: rest => some (.colon, rest)
  | ',' :: rest => some (.comma, rest)
  | 'n' :: 'u' :: 'l' :: 'l' :: rest => some (.null, rest)
  | 't' :: 'r' :: 'u' :: 'e' :: rest => some (.bool true, rest)
  | 'f' :: 'a' :: 'l' :: 's' :: 'e' :: rest => some (.bool false, rest)
  | '\x22' :: rest => (quoted? [] rest).map fun (pieces, rest) => (.text (Pieces.text? pieces), rest)
  | '-' :: rest => number? true rest
  | cs => number? false cs

/-- Whether a character may stand between tokens. -/
def isBlank (c : Char) : Bool := c = ' ' || c = '\n' || c = '\t' || c = '\r'

/-- Tokens of a text after those of `done`; every token takes at least one character. -/
def scanFrom (done : List Token) : (fuel : Nat) → List Char → Option (List Token)
  | 0, _ => none
  | fuel + 1, cs =>
    match cs.dropWhile isBlank with
    | [] => some done.reverse
    | cs =>
      match next? cs with
      | some (t, rest) => scanFrom (t :: done) fuel rest
      | none => none

/-- Tokens of a text. -/
def scan? (cs : List Char) : Option (List Token) := scanFrom [] (cs.length + 1) cs

end Token

end BoundSql.Json
