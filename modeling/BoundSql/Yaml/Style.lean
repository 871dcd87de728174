import BoundSql.Yaml.Scalar
import BoundSql.Yaml.Word
/-!
# Written scalars

In which style a text is written so that it reads back as the same text: plainly if it can be, as a block if it has
several lines, and else between quotes.  Only double quotes can hold every text, by escapes.

* `Style.ofText` : the style of a text.
* `Style.write` : a text in a style, whose lines are indented.
-/

namespace BoundSql.Yaml

/-- Whether a character may be written as it is. -/
def isPrintable (c : Char) : Bool :=
  c = '\n' || (' ' ≤ c && c ≤ '\x7e') || ('\u00a0' ≤ c && c ≤ '\ufffd' && c ≠ '\ufeff') || '\uffff' < c

/-- Whether a character ends a line in some spelling. -/
def endsLine (c : Char) : Bool := isBreak c || c = '\r' || c = '\u0085'

namespace Style

/-! ## Choice -/

/-- Whether a character that passes one test stands right in front of one that passes another. -/
def adjacent (first second : Char → Bool) (cs : List Char) : Bool :=
  (cs.zip (cs.drop 1)).any fun p => first p.1 && second p.2

/-- Whether a character is a space. -/
def isSpace (c : Char) : Bool := c = ' '

/-- Whether something may be written without escapes. -/
def needsNoEscape (cs : List Char) : Bool := cs.all isPrintable && !adjacent isSpace endsLine cs

/-- Signs that nothing plain begins with. -/
def signs : List Char :=
  ['#', ',', '[', ']', '\x7b', '\x7d', '&', '*', '!', '|', '>', '\x27', '\x22', '%', '@', '\x60']

/-- Whether a text begins as something other than a plain scalar does. -/
def beginsOtherwise (cs : List Char) : Bool :=
  cs.take 3 = ['-', '-', '-'] || cs.take 3 = ['.', '.', '.'] ||
    match cs with
    | [] => true
    | c :: rest =>
      signs.contains c || isSpace c || ((c = '?' || c = ':' || c = '-') && (rest.isEmpty || rest.head?.any isSpace))

/-- Whether a text would end before its last character. -/
def endsEarly (cs : List Char) : Bool :=
  adjacent (· = ':') isSpace cs || adjacent isSpace (· = '#') cs || cs.getLast? = some ':' || cs.getLast?.any isSpace

/-- Whether a text may be written plainly. -/
def mayBePlain (cs : List Char) : Bool :=
  needsNoEscape cs && !cs.any endsLine && !beginsOtherwise cs && !endsEarly cs

/-- Whether a text may be written between single quotes. -/
def mayBeQuoted (cs : List Char) : Bool := needsNoEscape cs && !adjacent endsLine isSpace cs

/-- Whether a text may be written as a block. -/
def mayBeBlock (cs : List Char) : Bool := needsNoEscape cs && !cs.getLast?.any isSpace

/-- Whether a text would read as something else if it were written plainly. -/
def isAmbiguous (s : String) : Bool := Word.ofText s ≠ .text || Word.leadsWithZero s.toList

/-- Style of a text. -/
def ofText (s : String) : Style :=
  let cs := s.toList
  if cs.contains '\n' then if mayBeBlock cs then .literal else .doubleQuoted
  else if !isAmbiguous s && mayBePlain cs then .plain
  else if mayBeQuoted cs then .singleQuoted
  else .doubleQuoted

/-! ## Writing -/

/-- Letter of an escape that stands for a character. -/
def escapeLetter? (c : Char) : Option Char :=
  ['0', 'a', 'b', 't', 'n', 'v', 'f', 'r', 'e', '\x22', '\\', 'N', '_', 'L', 'P'].find? fun l =>
    Scalar.escaped? l = some c

/-- Upper-case hexadecimal digits. -/
def hexDigits (width n : Nat) : List Char := (Text.hexDigits width n).map Char.toUpper

/-- A character between double quotes. -/
def escape (c : Char) : List Char :=
  if isPrintable c && !endsLine c && c ≠ '\x22' && c ≠ '\\' then [c]
  else match escapeLetter? c with
    | some l => ['\\', l]
    | none =>
      if c ≤ '\u00ff' then '\\' :: 'x' :: hexDigits 2 c.toNat
      else if c ≤ '\uffff' then '\\' :: 'u' :: hexDigits 4 c.toNat
      else '\\' :: 'U' :: hexDigits 8 c.toNat

/-- Text with `indent` spaces in front of each line but those without a character; `atStart` says whether a line
begins here. -/
def indented (indent : Nat) (atStart : Bool) : List Char → List Char
  | [] => []
  | c :: cs =>
    if isBreak c then c :: indented indent true cs
    else (if atStart then List.replicate indent ' ' else []) ++ c :: indented indent false cs

/-- Text between single quotes, where a quote is written twice. -/
def singleQuotedText (indent : Nat) (cs : List Char) : List Char :=
  let tail := if cs.getLast?.any isBreak then List.replicate indent ' ' else []
  '\x27' :: indented indent false (cs.flatMap fun c => if c = '\x27' then [c, c] else [c]) ++ tail ++ ['\x27']

/-- Signs that begin a block: what its indentation is, if that cannot be seen from its first line, and what is kept of
the line ends behind it. -/
def blockSigns (cs : List Char) : List Char :=
  let width := if cs.head?.any fun c => isSpace c || isBreak c then ['2'] else []
  let chomping := match cs.reverse with
    | [] => ['-']
    | [c] => if isBreak c then ['+'] else ['-']
    | c :: d :: _ => if !isBreak c then ['-'] else if isBreak d then ['+'] else []
  '|' :: width ++ chomping

/-- Text as a block, to the end of its last line. -/
def blockText (indent : Nat) (cs : List Char) : List Char :=
  blockSigns cs ++ '\n' :: indented indent true cs ++ (if cs.getLast?.any isBreak then [] else ['\n'])

/-- A text in a style, to the end of its last line. -/
def write (indent : Nat) : Style → List Char → List Char
  | .plain, cs => cs ++ ['\n']
  | .singleQuoted, cs => singleQuotedText indent cs ++ ['\n']
  | .literal, cs => blockText indent cs
  | .doubleQuoted, cs | .folded, cs => '\x22' :: cs.flatMap escape ++ ['\x22', '\n']

end Style

end BoundSql.Yaml
