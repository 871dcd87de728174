/-!
# Characters in their places

A YAML text as a sequence of cells: characters with the line and the column they stand in.  Line ends of every spelling
become one break, and a last cell marks the end.  Control characters are refused.  A mark of the encoding is a character
like others, and takes a column.

* `Cell.ofText?` : the cells of a text.
-/

namespace BoundSql.Yaml

/-- A character, the count of bytes in front of it, its line and its column. -/
structure Cell where
  char : Char
  offset : Nat
  line : Nat
  column : Nat

/-- What stands behind the last character; no text may contain it. -/
def endChar : Char := '\x00'

/-- Whether a character ends a line.  The other spellings of a line end are turned into the first of these. -/
def isBreak (c : Char) : Bool := c = '\n' || c = '\u2028' || c = '\u2029'

/-- Whether a character is a space or a tab. -/
def isBlank (c : Char) : Bool := c = ' ' || c = '\t'

/-- Whether a character separates words: a blank, a break, or the end. -/
def isSeparator (c : Char) : Bool := isBlank c || isBreak c || c = endChar

/-- Characters that a text may contain. -/
def isAllowed (c : Char) : Bool :=
  c = '\t' || c = '\n' || c = '\r' || (' ' ≤ c && c ≤ '\x7e') || c = '\u0085' || ('\u00a0' ≤ c && c ≤ '\ufffd') ||
    '\uffff' < c

namespace Cell

/-- Cells of the characters from a place on, behind those of `done`, which are reversed. -/
def placed (done : List Cell) (offset line column : Nat) : List Char → List Cell
  | [] => (⟨endChar, offset, line, column⟩ :: done).reverse
  | '\r' :: '\n' :: cs => placed (⟨'\n', offset, line, column⟩ :: done) (offset + 2) (line + 1) 0 cs
  | c :: cs =>
    let char := if c = '\r' || c = '\u0085' then '\n' else c
    let next := offset + c.utf8Size
    if isBreak char then placed (⟨char, offset, line, column⟩ :: done) next (line + 1) 0 cs
    else placed (⟨char, offset, line, column⟩ :: done) next line (column + 1) cs

/-- Cells of a text. -/
def ofText? (text : String) : Option (List Cell) :=
  if text.toList.all isAllowed then some (placed [] 0 0 0 text.toList) else none

/-- First character of some cells. -/
def headChar (cells : List Cell) : Char := (cells.head?.map Cell.char).getD endChar

/-- Characters of the first `n` cells. -/
def chars (n : Nat) (cells : List Cell) : List Char := (cells.take n).map Cell.char

/-- Whether cells begin with a line that marks the start or the end of a document with this character. -/
def atMark (mark : Char) (cells : List Cell) : Bool :=
  (cells.head?.map Cell.column).getD 0 = 0 && chars 3 cells = [mark, mark, mark] &&
    isSeparator (headChar (cells.drop 3))

/-- Whether cells begin with a line that marks the start or the end of a document. -/
def atDocumentMark (cells : List Cell) : Bool := atMark '-' cells || atMark '.' cells

end Cell

end BoundSql.Yaml
