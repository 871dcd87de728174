import BoundSql.Digest
import BoundSql.Value.Normal
/-!
# Placeholders

The tokens that stand for bound values in SQL text.  Numbered ones carry the position of their value and its type,
`%3$d`; the others its position and a checksum of its canonical text, `:v3_0badcafe`, and are used for executors that
bind in the order of appearance.

* `Style.scheme` : how each of the two styles writes a token.
-/

namespace BoundSql

namespace Placeholder

/-- How tokens are written for a value, its canonical text and its position, which counts from one. -/
structure Scheme where
  name : String
  token : Value → String → Nat → Except Failure String

/-- The two styles that a configuration may name. -/
inductive Style where
  | numbered
  | contentHash
  deriving DecidableEq

namespace Style

/-- Name of a style in configurations. -/
def name : Style → String
  | .numbered => "numbered"
  | .contentHash => "content_hash"

/-- Style of a name. -/
def ofName? (s : String) : Option Style := [.numbered, .contentHash].find? (·.name = s)

/-- Text of a numbered token. -/
def numberedText (tag : TypeTag) (position : Nat) : String :=
  "%" ++ toString position ++ "$" ++ String.ofList [tag.letter]

/-- Numbered token of a value; one that is announced as a text must have a canonical text. -/
def numberedToken (v : Value) (_ : String) (position : Nat) : Except Failure String :=
  match v.typeTag with
  | .string => (fun _ => numberedText .string position) <$> v.canonical
  | tag => .ok (numberedText tag position)

/-- Eight lower-case hexadecimal digits of a text's checksum. -/
def checksumText (canonical : String) : String :=
  String.ofList (Text.hexDigits 8 (Digest.checksum canonical).toNat)

/-- Token with a checksum. -/
def contentToken (_ : Value) (canonical : String) (position : Nat) : Except Failure String :=
  .ok (":v" ++ toString position ++ "_" ++ checksumText canonical)

/-- Scheme of a style. -/
def scheme (s : Style) : Scheme :=
  match s with
  | .numbered => ⟨s.name, numberedToken⟩
  | .contentHash => ⟨s.name, contentToken⟩

end Style

end Placeholder

end BoundSql
