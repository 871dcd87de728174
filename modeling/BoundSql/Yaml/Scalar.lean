import BoundSql.Text.Digit
import BoundSql.Yaml.Cell
/-!
# Scalars in YAML

The three ways to write a scalar: plain, between quotes, and as a block of lines.  A gap between two words, if it
contains line ends, is folded: one line end counts as a blank, and of several all but the first are kept.

* `Scalar.plain?`, `Scalar.quoted?`, `Scalar.block?` : the text of a scalar, and the cells that follow it.
-/

namespace BoundSql.Yaml

/-- How a scalar is written. -/
inductive Style where
  | plain
  | singleQuoted
  | doubleQuoted
  | literal
  | folded
  deriving DecidableEq

/-- The blanks and line ends since the last word. -/
structure Gap where
  /-- Blanks of the first line, reversed. -/
  blanks : List Char
  /-- Whether the line has ended. -/
  broken : Bool
  /-- The first line end, unless it is escaped. -/
  first : List Char
  /-- The other line ends, reversed. -/
  further : List Char

namespace Gap

/-- No gap. -/
def none : Gap := ⟨[], false, [], []⟩

/-- A line end that leaves nothing behind. -/
def escaped : Gap := ⟨[], true, [], []⟩

/-- Whether there is nothing in the gap. -/
def isEmpty (g : Gap) : Bool := g.blanks.isEmpty && !g.broken

/-- The gap with one more blank; blanks in front of a continued line do not count. -/
def blank (g : Gap) (c : Char) : Gap := if g.broken then g else { g with blanks := c :: g.blanks }

/-- The gap with one more line end; blanks in front of a line end do not count. -/
def lineEnd (g : Gap) (c : Char) : Gap :=
  if g.broken then { g with further := c :: g.further } else ⟨[], true, [c], []⟩

/-- What the gap leaves between two words. -/
def text (g : Gap) : List Char :=
  if !g.broken then g.blanks.reverse
  else if g.first = ['\n'] then (if g.further.isEmpty then [' '] else g.further.reverse)
  else g.first ++ g.further.reverse

end Gap

namespace Scalar

/-- Text of a scalar, whether a line ended behind it, and the cells that follow. -/
structure Scanned where
  text : List Char
  broken : Bool
  rest : List Cell

/-! ## Plain -/

/-- Brackets, braces and the comma, which end a plain scalar inside of them. -/
def isFlowSign (c : Char) : Bool := c = ',' || c = '[' || c = ']' || c = '{' || c = '}'

/-- A plain scalar, whose continued lines must be indented by `indent` at least unless it is inside brackets. -/
def plainFrom (flow : Bool) (indent : Int) (done : List Char) (gap : Gap) : List Cell → Option Scanned
  | [] => some ⟨done.reverse, gap.broken, []⟩
  | c :: cs =>
    if isBlank c.char then
      if gap.broken && c.char = '\t' && (c.column : Int) < indent then none
      else plainFrom flow indent done (gap.blank c.char) cs
    else if isBreak c.char then plainFrom flow indent done (gap.lineEnd c.char) cs
    else
      let next := Cell.headChar cs
      let ends := c.char = endChar ||
        (!gap.isEmpty && (c.char = '#' || Cell.atDocumentMark (c :: cs) || (!flow && (c.column : Int) < indent)))
      if ends then some ⟨done.reverse, gap.broken, c :: cs⟩
      else if flow && c.char = ':' && (isFlowSign next || next = '?') then none
      else if (c.char = ':' && isSeparator next) || (flow && isFlowSign c.char) then
        some ⟨done.reverse, gap.broken, c :: cs⟩
      else plainFrom flow indent (c.char :: (gap.text.reverse ++ done)) Gap.none cs

/-- A plain scalar. -/
def plain? (flow : Bool) (indent : Int) (cells : List Cell) : Option Scanned := plainFrom flow indent [] Gap.none cells

/-! ## Quoted -/

/-- Where a double-quoted scalar stands in an escape: outside, behind its backslash, or before so many digits. -/
inductive Escape where
  | outside
  | begun
  | digits (left : Nat) (value : Nat)

/-- Character that a one-letter escape stands for. -/
def escaped? : Char → Option Char
  | '0' => some '\x00'
  | 'a' => some '\x07'
  | 'b' => some '\x08'
  | 't' | '\t' => some '\t'
  | 'n' => some '\n'
  | 'v' => some '\x0b'
  | 'f' => some '\x0c'
  | 'r' => some '\r'
  | 'e' => some '\x1b'
  | ' ' => some ' '
  | '\x22' => some '\x22'
  | '/' => some '/'
  | '\\' => some '\\'
  | 'N' => some '\u0085'
  | '_' => some '\u00a0'
  | 'L' => some '\u2028'
  | 'P' => some '\u2029'
  | _ => none

/-- Count of hexadecimal digits behind an escape letter. -/
def escapeDigits? : Char → Option Nat
  | 'x' => some 2
  | 'u' => some 4
  | 'U' => some 8
  | _ => none

/-- Character of a code point. -/
def charOfCode? (n : Nat) : Option Char := if n.isValidChar then some (Char.ofNat n) else none

/-- A quoted scalar behind its opening quote: its text, and the cells behind the closing one. -/
def quotedFrom (single : Bool) (done : List Char) (gap : Gap) (escape : Escape) :
    List Cell → Option (List Char × List Cell)
  | [] => none
  | c :: cs =>
    match escape with
    | .digits left value =>
      match Text.hexValue? c.char with
      | none => none
      | some d =>
        if 1 < left then quotedFrom single done gap (.digits (left - 1) (value * 16 + d)) cs
        else match charOfCode? (value * 16 + d) with
          | some e => quotedFrom single (e :: done) Gap.none .outside cs
          | none => none
    | .begun =>
      if isBreak c.char then quotedFrom single done Gap.escaped .outside cs
      else match escaped? c.char, escapeDigits? c.char with
        | some e, _ => quotedFrom single (e :: done) Gap.none .outside cs
        | none, some n => quotedFrom single done Gap.none (.digits n 0) cs
        | none, none => none
    | .outside =>
      if isBlank c.char then quotedFrom single done (gap.blank c.char) .outside cs
      else if isBreak c.char then quotedFrom single done (gap.lineEnd c.char) .outside cs
      else if c.char = endChar || Cell.atDocumentMark (c :: cs) then none
      else
        let done := gap.text.reverse ++ done
        if single && c.char = '\x27' then
          match cs with
          | q :: rest =>
            if q.char = '\x27' then quotedFrom single ('\x27' :: done) Gap.none .outside rest
            else some (done.reverse, cs)
          | [] => some (done.reverse, cs)
        else if !single && c.char = '\x22' then some (done.reverse, cs)
        else if !single && c.char = '\\' then quotedFrom single done Gap.none .begun cs
        else quotedFrom single (c.char :: done) Gap.none .outside cs

/-- A quoted scalar behind its opening quote. -/
def quoted? (single : Bool) (cells : List Cell) : Option (List Char × List Cell) :=
  quotedFrom single [] Gap.none .outside cells

/-! ## Blocks -/

/-- What happens to the line ends behind the last line of a block. -/
inductive Chomping where
  | strip
  | clip
  | keep
  deriving DecidableEq

/-- Chomping of its sign. -/
def chomping? (c : Char) : Option Chomping :=
  if c = '-' then some .strip else if c = '+' then some .keep else none

/-- Signs behind the first sign of a block: chomping, and how far its lines are indented, in either order. -/
def blockHeader? (cells : List Cell) : Option (Chomping × Option Nat × List Cell) :=
  let digit (cells : List Cell) : Option (Option Nat × List Cell) :=
    let c := Cell.headChar cells
    if c = '0' then none
    else if c.isDigit then some (some (Text.digitValue c), cells.drop 1)
    else some (none, cells)
  match chomping? (Cell.headChar cells) with
  | some chomping => (digit (cells.drop 1)).map fun (n, rest) => (chomping, n, rest)
  | none => do
    let (n, rest) ← digit cells
    match n, chomping? (Cell.headChar rest) with
    | some _, some chomping => return (chomping, n, rest.drop 1)
    | _, _ => return (.clip, n, rest)

/-- Cells of the next line, if only blanks and a comment come before it. -/
def restOfLine? (cells : List Cell) : Option (List Cell) :=
  let cells := cells.dropWhile fun c => isBlank c.char
  let cells := if Cell.headChar cells = '#' then cells.dropWhile fun c => !isBreak c.char && c.char ≠ endChar else cells
  match cells with
  | c :: rest => if isBreak c.char then some rest else if c.char = endChar then some cells else none
  | [] => some []

/-- Empty lines in front of a line of a block: its indentation, which is that of the first line that has more than
blanks if it is not known (zero), the line ends, and the cells of that line behind the indentation. -/
def emptyLines? (parent : Int) (indent widest : Nat) (breaks : List Char) :
    List Cell → Option (Nat × List Char × List Cell)
  | [] => some (indent, breaks.reverse, [])
  | c :: cs =>
    let before := indent = 0 || c.column < indent
    if c.char = ' ' && before then emptyLines? parent indent widest breaks cs
    else if c.char = '\t' && before then none
    else if isBreak c.char then emptyLines? parent indent (max widest c.column) (c.char :: breaks) cs
    else
      let widest := max widest c.column
      some (if indent = 0 then max widest (max (parent + 1).toNat 1) else indent, breaks.reverse, c :: cs)

/-- What was read of a block: its text, the line end behind it, the empty lines behind that, and whether the last line
began with a blank. -/
structure BlockState where
  done : List Char
  lineEnd : List Char
  empty : List Char
  afterBlank : Bool

/-- Text of a block up to a line that begins with a blank or not. -/
def BlockState.join (literal : Bool) (s : BlockState) (blank : Bool) : List Char :=
  let folds := !literal && s.lineEnd = ['\n'] && !s.afterBlank && !blank
  let lineEnd := if folds then (if s.empty.isEmpty then [' '] else []) else s.lineEnd
  s.empty.reverse ++ (lineEnd ++ s.done)

/-- Lines of a block. -/
def blockLines? (literal : Bool) (parent : Int) (indent : Nat) :
    (fuel : Nat) → BlockState → List Cell → Option (BlockState × List Cell)
  | 0, s, cells => some (s, cells)
  | fuel + 1, s, cells =>
    match cells with
    | [] => some (s, [])
    | c :: _ =>
      if c.column ≠ indent || c.char = endChar then some (s, cells)
      else
        let line := cells.takeWhile fun c => !isBreak c.char && c.char ≠ endChar
        let done := (line.map Cell.char).reverse ++ s.join literal (isBlank c.char)
        let rest := cells.drop line.length
        let (lineEnd, rest) := match rest with
          | b :: more => if isBreak b.char then ([b.char], more) else ([], rest)
          | [] => ([], [])
        match emptyLines? parent indent 0 [] rest with
        | some (_, empty, rest) => blockLines? literal parent indent fuel ⟨done, lineEnd, empty, isBlank c.char⟩ rest
        | none => none

/-- A block behind its first sign, inside of a collection that is indented by `parent`. -/
def block? (literal : Bool) (parent : Int) (cells : List Cell) : Option (List Char × List Cell) := do
  let (chomping, offset, rest) ← blockHeader? cells
  let rest ← restOfLine? rest
  let known := match offset with
    | some n => if 0 ≤ parent then parent.toNat + n else n
    | none => 0
  let (indent, empty, rest) ← emptyLines? parent known 0 [] rest
  let (s, rest) ← blockLines? literal parent indent rest.length ⟨[], [], empty, false⟩ rest
  let tail := match chomping with
    | .strip => []
    | .clip => s.lineEnd
    | .keep => s.lineEnd ++ s.empty
  return (s.done.reverse ++ tail, rest)

end Scalar

end BoundSql.Yaml
