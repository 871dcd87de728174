import BoundSql.Json.Number
/-!
# JSON syntax trees

A JSON text as a tree that keeps the order and the repetition of members.  Tokens are taken one at a time: the
containers that are still open form a stack, so nesting of any depth is read.

* `Tree.ofTokens?` : the tree of a token list.
* `Tree.read?` : the tree of a text.
* `Tree.fields?` : the fields of a record, written as an object or as an array.
-/

namespace BoundSql.Json

mutual

/-- A JSON value as written. -/
inductive Tree where
  | null
  | bool (b : Bool)
  | number (n : NumberText)
  | text (s : Option String)
  | array (items : List Tree)
  | object (members : List Member)

/-- A member of an object. -/
structure Member where
  key : Option String
  value : Tree

end

/-- A container that is still open, with what it holds in reverse order. -/
inductive Frame where
  | array (items : List Tree)
  | object (members : List Member) (key : Option String)

/-- What may come next, within the open containers. -/
inductive Expected where
  | value (frames : List Frame)
  | valueOrEnd (frames : List Frame)
  | key (frames : List Frame) (members : List Member)
  | keyOrEnd (frames : List Frame)
  | colon (frames : List Frame) (members : List Member) (key : Option String)
  | afterItem (frames : List Frame) (items : List Tree)
  | afterMember (frames : List Frame) (members : List Member)
  | nothing (result : Tree)

namespace Expected

/-- A value is complete. -/
def complete (v : Tree) : List Frame → Expected
  | [] => .nothing v
  | .array items :: frames => .afterItem frames (v :: items)
  | .object members name :: frames => .afterMember frames (⟨name, v⟩ :: members)

/-- A token where a value is expected. -/
def valueStep? (frames : List Frame) : Token → Option Expected
  | .null => some (complete .null frames)
  | .bool b => some (complete (.bool b) frames)
  | .number n => some (complete (.number n) frames)
  | .text s => some (complete (.text s) frames)
  | .openBracket => some (.valueOrEnd frames)
  | .openBrace => some (.keyOrEnd frames)
  | _ => none

/-- One token. -/
def step? : Expected → Token → Option Expected
  | .value frames, t => valueStep? frames t
  | .valueOrEnd frames, .closeBracket => some (complete (.array []) frames)
  | .valueOrEnd frames, t => valueStep? (.array [] :: frames) t
  | .keyOrEnd frames, .closeBrace => some (complete (.object []) frames)
  | .keyOrEnd frames, .text name => some (.colon frames [] name)
  | .key frames members, .text name => some (.colon frames members name)
  | .colon frames members name, .colon => some (.value (.object members name :: frames))
  | .afterItem frames items, .comma => some (.value (.array items :: frames))
  | .afterItem frames items, .closeBracket => some (complete (.array items.reverse) frames)
  | .afterMember frames members, .comma => some (.key frames members)
  | .afterMember frames members, .closeBrace => some (complete (.object members.reverse) frames)
  | _, _ => none

end Expected

namespace Tree

/-- Tree of a token list. -/
def ofTokens? (ts : List Token) : Option Tree :=
  match ts.foldlM Expected.step? (.value []) with
  | some (.nothing v) => some v
  | _ => none

/-- Tree of a text. -/
def read? (text : String) : Option Tree := (Token.scan? text.toList).bind ofTokens?

/-- Most brackets and braces that may be open around a value that is made use of. -/
def depthLimit : Nat := 127

/-- Content of a text. -/
def text? : Tree → Option String
  | .text s => s
  | _ => none

/-- Content of a truth value. -/
def bool? : Tree → Option Bool
  | .bool b => some b
  | _ => none

/-- Values of the members with a key. -/
def valuesOf (key : String) (members : List Member) : List Tree :=
  members.filterMap fun m => if m.key = some key then some m.value else none

/-- Fields of a record of known names, from the members of an object, each at most once among others that do not
matter, or from the items of an array in the order of the names. -/
def fields? (names : List String) : Tree → Option (String → Option Tree)
  | .object members =>
    if members.all (·.key.isSome) && names.all fun name => (valuesOf name members).length ≤ 1 then
      some fun name => (valuesOf name members).head?
    else none
  | .array items =>
    if items.length ≤ names.length then some fun name => (names.zip items).lookup name else none
  | _ => none

/-- Name of a plain alternative: a text, or the key of an object whose only member is null. -/
def alternative? (depth : Nat) : Tree → Option String
  | .text s => s
  | .object [⟨some name, .null⟩] => if 0 < depth then some name else none
  | _ => none

end Tree

end BoundSql.Json
