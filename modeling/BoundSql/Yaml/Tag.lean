import BoundSql.Yaml.Scalar
/-!
# Names, tags and directives

What stands in front of a node: the name of an anchor, and a tag, which is written as a handle with a suffix.  What a
handle is short for is said by the directives above a document.  A tag is a sequence of bytes, since escapes may spell
bytes that are no text.

* `WrittenTag.read?`, `Directive.read?` : a tag or a directive, and the cells that follow it.
* `WrittenTag.expand?` : the tag that is written.
* `Tag.name?` : the name of a tag that belongs to the document itself.
-/

namespace BoundSql.Yaml

/-- Whether a character may stand in the name of an anchor, a handle or a directive. -/
def isNameChar (c : Char) : Bool := c.isAlphanum || c = '_' || c = '-'

/-- Name that cells begin with, and the cells behind it. -/
def name (cells : List Cell) : String × List Cell :=
  let word := cells.takeWhile fun c => isNameChar c.char
  (String.ofList (word.map Cell.char), cells.drop word.length)

/-- Name of an anchor behind its sign; it ends where a word ends, or at a few signs. -/
def anchorName? (cells : List Cell) : Option (String × List Cell) :=
  let (word, rest) := name cells
  let next := Cell.headChar rest
  if word.isEmpty || !(isSeparator next || ['?', ':', ',', ']', '\x7d', '%', '@', '\x60'].contains next) then none
  else some (word, rest)

/-! ## Tags -/

/-- The bytes of a tag. -/
structure Tag where
  bytes : List UInt8
  deriving DecidableEq

namespace Tag

/-- Tag of a text. -/
def ofText (s : String) : Tag := ⟨s.toUTF8.data.toList⟩

/-- Tag of a type that every document knows. -/
def common (type : String) : Tag := ofText ("tag:yaml.org,2002:" ++ type)

/-- Whether a tag belongs to the document itself: it begins with an exclamation mark. -/
def isOwn (t : Tag) : Bool := t.bytes.head? = some '!'.toUInt8

/-- Name of a tag that belongs to the document itself, if it is a text. -/
def name? (t : Tag) : Option String := if t.isOwn then String.fromUTF8? ⟨(t.bytes.drop 1).toArray⟩ else none

end Tag

/-- A tag as written: `!`, the handle's name and another `!` if there is a name, then the suffix.  Without a handle the
suffix is the tag. -/
structure WrittenTag where
  handle : String
  suffix : List UInt8
  deriving DecidableEq

namespace WrittenTag

/-- Whether a character may stand in the suffix of a tag; between angle brackets more signs may. -/
def isSuffixChar (bracketed : Bool) (c : Char) : Bool :=
  isNameChar c || [';', '/', '?', ':', '@', '&', '=', '+', '$', '.', '!', '~', '*', '\x27', '(', ')', '%'].contains c ||
    (bracketed && (c = ',' || c = '[' || c = ']'))

/-- Count of the bytes that follow the first byte of a character's encoding. -/
def trailing? (byte : Nat) : Option Nat :=
  if byte < 128 then some 0
  else if byte / 32 = 6 then some 1
  else if byte / 16 = 14 then some 2
  else if byte / 8 = 30 then some 3
  else none

/-- Bytes of a suffix, of which the first `trailing` must belong to a character that has begun.  A percent sign and two
hexadecimal digits stand for one byte; such bytes make up characters, but which characters is not asked. -/
def suffixBytes? : (trailing : Nat) → List Char → Option (List UInt8)
  | 0, [] => some []
  | trailing, '%' :: a :: b :: cs => do
    let byte := 16 * (← Text.hexValue? a) + (← Text.hexValue? b)
    let trailing ←
      if trailing = 0 then trailing? byte else if byte / 64 = 2 then some (trailing - 1) else none
    return UInt8.ofNat byte :: (← suffixBytes? trailing cs)
  | 0, c :: cs => if c = '%' then none else (suffixBytes? 0 cs).map (c.toUInt8 :: ·)
  | _, _ => none

/-- Suffix that cells begin with, and the cells behind it. -/
def suffix? (bracketed : Bool) (cells : List Cell) : Option (List UInt8 × List Cell) := do
  let word := cells.takeWhile fun c => isSuffixChar bracketed c.char
  return (← suffixBytes? 0 (word.map Cell.char), cells.drop word.length)

/-- Bytes in front of the first zero. -/
def beforeZero (bytes : List UInt8) : List UInt8 := bytes.takeWhile (· ≠ 0)

/-- A tag behind its exclamation mark. -/
def body? (cells : List Cell) : Option (WrittenTag × List Cell) :=
  if Cell.headChar cells = '<' then do
    let (suffix, rest) ← suffix? true (cells.drop 1)
    if suffix.isEmpty || Cell.headChar rest ≠ '>' then none else some (⟨"", suffix⟩, rest.drop 1)
  else
    let (word, rest) := name cells
    if Cell.headChar rest = '!' then do
      let (suffix, rest) ← suffix? false (rest.drop 1)
      if suffix.isEmpty then none else some (⟨"!" ++ word ++ "!", suffix⟩, rest)
    else do
      let (suffix, rest) ← suffix? false cells
      return (if (beforeZero suffix).isEmpty then ⟨"", ['!'.toUInt8]⟩ else ⟨"!", suffix⟩, rest)

/-- A tag behind its exclamation mark, which must be a word of its own. -/
def read? (flow : Bool) (cells : List Cell) : Option (WrittenTag × List Cell) := do
  let (tag, rest) ← body? cells
  if isSeparator (Cell.headChar rest) || (flow && Cell.headChar rest = ',') then some (tag, rest) else none

/-- Handles that every document knows, and what they are short for. -/
def commonHandles : List (String × List UInt8) := [("!", ['!'.toUInt8]), ("!!", (Tag.common "").bytes)]

/-- The tag that is written among handles; of either part only what is in front of a zero counts. -/
def expand? (handles : List (String × List UInt8)) (t : WrittenTag) : Option Tag :=
  if t.handle.isEmpty then some ⟨beforeZero t.suffix⟩
  else (handles.lookup t.handle).map fun expansion => ⟨beforeZero expansion ++ beforeZero t.suffix⟩

end WrittenTag

/-! ## Directives -/

/-- A line above a document: the version of the language, or what a handle is short for. -/
inductive Directive where
  | version (major minor : Nat)
  | handle (name : String) (expansion : List UInt8)
  deriving DecidableEq

namespace Directive

/-- Number of one to nine digits that cells begin with. -/
def number? (cells : List Cell) : Option (Nat × List Cell) :=
  let word := cells.takeWhile fun c => c.char.isDigit
  if word.isEmpty || 9 < word.length then none
  else some (Text.decimalValue (word.map Cell.char), cells.drop word.length)

/-- Version behind its directive's name. -/
def version? (cells : List Cell) : Option (Directive × List Cell) := do
  let (major, rest) ← number? cells
  if Cell.headChar rest ≠ '.' then none
  else
    let (minor, rest) ← number? (rest.drop 1)
    return (.version major minor, rest)

/-- Handle behind its directive's name, and what it is short for. -/
def handle? (cells : List Cell) : Option (Directive × List Cell) := do
  if Cell.headChar cells ≠ '!' then none
  else
    let (word, rest) := name (cells.drop 1)
    let closed := Cell.headChar rest = '!'
    if !closed && !word.isEmpty then none
    else
      let handle := if closed then "!" ++ word ++ "!" else "!"
      let rest := if closed then rest.drop 1 else rest
      if !isBlank (Cell.headChar rest) then none
      else
        let (expansion, rest) ← WrittenTag.suffix? true (rest.dropWhile fun c => isBlank c.char)
        if expansion.isEmpty || !isSeparator (Cell.headChar rest) then none else some (.handle handle expansion, rest)

/-- A directive behind its percent sign, to the end of its line. -/
def read? (cells : List Cell) : Option (Directive × List Cell) := do
  let (word, rest) := name cells
  if !isSeparator (Cell.headChar rest) then none
  else
    let rest := rest.dropWhile fun c => isBlank c.char
    let (directive, rest) ←
      if word = "YAML" then version? rest else if word = "TAG" then handle? rest else none
    return (directive, ← Scalar.restOfLine? rest)

end Directive

end BoundSql.Yaml
