import BoundSql.Text.Digit
/-!
# Parameter names

What becomes of placeholders in a database driver that knows parameters by name: a numbered token `%3$d` turns into
the parameter `?3`, a token with a checksum is a parameter name as it stands, and the position is read back from the
name.

* `toIndexed` : the text with every numbered token replaced.
* `position?` : the position in a parameter name.
-/

namespace BoundSql.Placeholder

/-- The digits of a numbered token behind its percent sign, and what follows the token. -/
def numbered? (cs : List Char) : Option (List Char × List Char) :=
  let digits := cs.takeWhile Text.isDecimalDigit
  match digits, cs.dropWhile Text.isDecimalDigit with
  | [], _ => none
  | _ :: _, '$' :: letter :: rest =>
    if letter = 'd' || letter = 'f' || letter = 's' then some (digits, rest) else none
  | _, _ => none

theorem numbered?_length {cs digits rest : List Char} (h : numbered? cs = some (digits, rest)) :
    rest.length < cs.length := by
  have hle : (cs.dropWhile Text.isDecimalDigit).length ≤ cs.length := (List.dropWhile_sublist _).length_le
  unfold numbered? at h
  dsimp only at h
  split at h
  · simp at h
  · next hdrop =>
    split at h
    · simp only [Option.some.injEq, Prod.mk.injEq] at h
      rw [hdrop] at hle
      simp only [List.length_cons, h.2] at hle
      omega
    · simp at h
  · simp at h

/-- Characters with every numbered token replaced by a parameter, behind those of `done`, which is reversed. -/
def toIndexedFrom (done : List Char) : List Char → List Char
  | [] => done.reverse
  | c :: cs =>
    if c = '%' then
      match _h : numbered? cs with
      | some (digits, rest) => toIndexedFrom (digits.reverse ++ '?' :: done) rest
      | none => toIndexedFrom (c :: done) cs
    else toIndexedFrom (c :: done) cs
termination_by cs => cs.length
decreasing_by
  · have := numbered?_length _h
    simp only [List.length_cons]
    omega
  all_goals simp

/-- Text with every numbered token replaced by a parameter. -/
def toIndexed (sql : String) : String := String.ofList (toIndexedFrom [] sql.toList)

/-- Whether a text has a numbered token; replacing one makes the text shorter. -/
def hasNumbered (sql : String) : Bool := toIndexed sql ≠ sql

/-- Whether a character is a lower-case hexadecimal digit. -/
def isLowerHex (c : Char) : Bool := c.isDigit || ('a' ≤ c && c ≤ 'f')

/-- Number of a run of ASCII digits, if it is less than `2 ^ 64`. -/
def index? (digits : List Char) : Option Nat :=
  if digits.isEmpty || !digits.all Char.isDigit then none
  else
    let n := Text.decimalValue digits
    if n < UInt64.size then some n else none

/-- Position that a parameter name carries. -/
def position? (name : String) : Option Nat :=
  match name.toList with
  | '?' :: digits => index? digits
  | ':' :: 'v' :: rest =>
    match rest.dropWhile Text.isDecimalDigit with
    | '_' :: sum =>
      if sum.length = 8 && sum.all isLowerHex then index? (rest.takeWhile Text.isDecimalDigit) else none
    | _ => none
  | _ => none

end BoundSql.Placeholder
