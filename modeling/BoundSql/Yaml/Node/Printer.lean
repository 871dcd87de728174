import BoundSql.Number.Layout
import BoundSql.Yaml.Node
import BoundSql.Yaml.Style
/-!
# Written nodes

Nodes as the lines of a document.  Collections are written in blocks, each two columns further than the one around it,
but a sequence that belongs to a key begins in the column of the key.  Empty collections are written as brackets.

* `Node.render` : the text of a document.
* `Node.print` : what follows the sign in front of a node.
-/

namespace BoundSql.Yaml

/-- Doubles in YAML: an exponent is written outside of five leading zeros and sixteen digits, and there are words for
what is no finite number. -/
def layout : Layout where
  tie := .toEven
  positional e := -5 ≤ e && e < 16
  wholeMark := ".0"
  upMark := "e"
  nan := ".nan"
  infinity := ".inf"
  negativeInfinity := "-.inf"

namespace Node

/-! ## Nodes of contents -/

/-- A word that stands for something other than its text. -/
def word (text : String) : Node := .scalar none .plain text

/-- A text in the style it takes to read it back. -/
def ofText (s : String) : Node := .scalar none (Style.ofText s) s

/-- A truth value. -/
def ofBool (b : Bool) : Node := word (if b then "true" else "false")

/-- A whole number. -/
def ofInt (n : Int) : Node := word (toString n)

/-- A double. -/
def ofFloat (x : Binary64) : Node := word (layout.text x)

/-- A mapping with plain keys. -/
def record (members : List (String × Node)) : Node := .mapping none (members.map fun m => ⟨word m.1, m.2⟩)

/-- Member of a record that is left out where there is nothing. -/
def optionalText (name : String) (s : Option String) : List (String × Node) :=
  (s.map fun s => (name, ofText s)).toList

/-! ## Printing -/

/-- Longest key, in bytes, that stands in front of its colon without a question mark. -/
def simpleKeyLimit : Nat := 128

/-- Key that fits in front of a colon on one line. -/
def simpleKey? : Node → Option (List Char)
  | .scalar none style text =>
    if text.utf8ByteSize ≤ simpleKeyLimit && !text.toList.any endsLine then some (style.write 0 text.toList).dropLast
    else none
  | _ => none

/-- Spaces up to a column. -/
def spaces (column : Nat) : List Char := List.replicate column ' '

/-- A byte of a tag between angle brackets: a sign that may stand there, or else an escape. -/
def tagByte (byte : UInt8) : List Char :=
  let c := Char.ofUInt8 byte
  if WrittenTag.isSuffixChar true c && c ≠ '%' then [c] else '%' :: Text.hexDigits 2 byte.toNat

/-- Tag of a node behind a space.  It is written as it is if it is one of the document's own with a plain name. -/
def tagText : Option Tag → List Char
  | none => []
  | some tag =>
    match tag.name? with
    | some name =>
      if name.toList.all isNameChar then ' ' :: '!' :: name.toList else bracketed tag
    | none => bracketed tag
where
  /-- Any tag. -/
  bracketed (tag : Tag) : List Char := [' ', '!', '<'] ++ tag.bytes.flatMap tagByte ++ ['>']

mutual

/-- What follows the sign in front of a node, to the end of its last line.  The sign stands in the collection that
begins at `column`, and the node of a key may begin on the line of the key only if it is a scalar or empty.  A reference
is written with its number as the name. -/
def print (column : Nat) (ofKey : Bool) : Node → List Char
  | .scalar tag style text => tagText tag ++ ' ' :: style.write (column + 2) text.toList
  | .sequence tag [] => tagText tag ++ [' ', '[', ']', '\n']
  | .sequence tag (item :: items) =>
    let start := if ofKey then column else column + 2
    let space := if ofKey || tag.isSome then '\n' :: spaces start else [' ']
    tagText tag ++ space ++ printItems start (item :: items)
  | .mapping tag [] => tagText tag ++ [' ', '\x7b', '\x7d', '\n']
  | .mapping tag (member :: members) =>
    let space := if ofKey || tag.isSome then '\n' :: spaces (column + 2) else [' ']
    tagText tag ++ space ++ printMembers (column + 2) (member :: members)
  | .reference number => [' ', '*'] ++ Nat.toDigits 10 number ++ ['\n']

/-- Items of a sequence that begins at a column, where the first line is indented already. -/
def printItems (column : Nat) : List Node → List Char
  | [] => []
  | item :: items =>
    '-' :: print column false item ++
      match items with
      | [] => []
      | _ :: _ => spaces column ++ printItems column items

/-- Members of a mapping that begins at a column, where the first line is indented already. -/
def printMembers (column : Nat) : List Member → List Char
  | [] => []
  | member :: members =>
    printMember column member ++
      match members with
      | [] => []
      | _ :: _ => spaces column ++ printMembers column members

/-- One member of a mapping that begins at a column. -/
def printMember (column : Nat) : Member → List Char
  | ⟨key, value⟩ =>
    match simpleKey? key with
    | some text => text ++ ':' :: print column true value
    | none => '?' :: print column false key ++ spaces column ++ ':' :: print column false value

end

/-- Text of a document. -/
def render : Node → String
  | .mapping none (member :: members) => String.ofList (printMembers 0 (member :: members))
  | .sequence none (item :: items) => String.ofList (printItems 0 (item :: items))
  | node => String.ofList ((print 0 true node).dropWhile Style.isSpace)

end Node

end BoundSql.Yaml
