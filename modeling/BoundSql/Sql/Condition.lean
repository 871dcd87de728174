import BoundSql.Bindings
import BoundSql.FieldMap
import BoundSql.Sql.Token
/-!
# Conditions in SQL

How a condition is written.  A reference becomes the column of its field, a missing value the word for it, a text that
names a mapped field that field's column, and every other literal the placeholder that it is bound to.  What a
condition is written in is left open: a `Writer` says which units stand for a token and for a value, and the writer of
a `Context` makes tokens.

* `conditionUnits` : the units of a condition, for any writer.
* `conditionTokens` : its tokens; fails for a literal that is not bound, and for a wrong count of operands.
* `Condition.body` : one operator over operands whose units are known.
-/

namespace BoundSql

open Sql (Token)

namespace Sql

/-! ## Writers -/

/-- Tokens, or why there are none. -/
abbrev Tokens := Except Failure (List Token)

/-- What a text is written in: a unit for every token, and the units of a value in a condition and in a row. -/
structure Writer (τ : Type) where
  token : Token → τ
  scalar : Value → Except Failure (List τ)
  cell : Value → Except Failure (List τ)

namespace Writer

variable {τ : Type} (w : Writer τ)

/-- Units of some tokens. -/
def fixed (ts : List Token) : List τ := ts.map w.token

/-- Units between parentheses. -/
def parenthesized (us : List τ) : List τ := w.token .openParen :: us ++ [w.token .closeParen]

/-- Parts with commas between them. -/
def listed (parts : List (List τ)) : List τ := separated (w.token .comma) parts

/-- A literal of a condition: a scalar, or a list of scalars between parentheses. -/
def literal : Value → Except Failure (List τ)
  | .list items => do
    let parts ← items.mapM w.scalar
    return w.parenthesized (w.listed parts)
  | v => w.scalar v

end Writer

/-! ## Names and values -/

/-- What the literals and the fields of a condition are resolved by. -/
structure Context where
  values : Bindings
  fields : FieldMap

/-- Column of a field; a field that is not mapped is a column itself.  A qualifier is left out if the column has its
own. -/
def fieldTokens (fields : FieldMap) (f : FieldRef) : List Token :=
  let column := (fields.column? f.field).getD f.field
  match f.entity with
  | some entity => if column.toList.contains '.' then nameTokens column else
      nameTokens entity ++ .dot :: nameTokens column
  | none => nameTokens column

/-- Placeholder of a value; a missing value needs none. -/
def boundTokens (values : Bindings) (v : Value) : Tokens :=
  if v.isNull then .ok [.keyword .null]
  else match values.placeholderFor? v with
    | some token => .ok [.placeholder token]
    | none => .error (.unbound v)

/-- A scalar of a condition: the column that it names, or its placeholder. -/
def scalarTokens (ctx : Context) (v : Value) : Tokens :=
  match ctx.fields.named? v with
  | some column => .ok (nameTokens column)
  | none => boundTokens ctx.values v

/-- Writer of tokens: values in a row are bound as they are, also those that name a field. -/
def Context.writer (ctx : Context) : Writer Token := ⟨id, scalarTokens ctx, boundTokens ctx.values⟩

/-- Whether two integers are equal, as a condition that is always true or always false. -/
def constant (truth : Bool) : List Token := [.integer 1, .sign .equal, .integer (if truth then 1 else 0)]

end Sql

/-! ## Operators -/

namespace Condition

open Sql (Writer)

variable {τ : Type}

/-- An operand: the term, and its units if it has any. -/
abbrev Operand (τ : Type) := Term × Except Failure (List τ)

/-- Whether an operand is the missing value. -/
def Operand.isNull (o : Operand τ) : Bool :=
  match o.1 with
  | .literal v => v.isNull
  | _ => false

/-- Whether an operand is the list without items. -/
def Operand.isEmptyList (o : Operand τ) : Bool :=
  match o.1 with
  | .literal v => v.isEmptyList
  | _ => false

/-- Operands with a word between every two of them, or a constant condition if there are none. -/
def junction (w : Writer τ) (word : Sql.Keyword) (whenEmpty : Bool) (operands : List (Operand τ)) :
    Except Failure (List τ) :=
  if operands.isEmpty then .ok (w.fixed (Sql.constant whenEmpty))
  else do
    let parts ← operands.mapM (·.2)
    return Sql.separated (w.token (.keyword word)) parts

/-- Two operands with tokens between them. -/
def binary (w : Writer τ) (operator : Operator) (between : List Token) (operands : List (Operand τ)) :
    Except Failure (List τ) :=
  match operands with
  | [left, right] => do
    let l ← left.2
    let r ← right.2
    return l ++ w.fixed between ++ r
  | _ => .error (.operandCount operator 2 operands.length)

/-- Equality of two operands; nothing equals a missing value, so the other operand is tested for being missing. -/
def equality (w : Writer τ) (operator : Operator) (sign : Sql.Sign) (nullTest : List Token)
    (operands : List (Operand τ)) : Except Failure (List τ) :=
  match operands with
  | [left, right] =>
    if Operand.isNull right then (· ++ w.fixed nullTest) <$> left.2
    else if Operand.isNull left then (· ++ w.fixed nullTest) <$> right.2
    else binary w operator [.sign sign] operands
  | _ => .error (.operandCount operator 2 operands.length)

/-- Membership; nothing is a member of the empty list. -/
def membership (w : Writer τ) (operands : List (Operand τ)) : Except Failure (List τ) :=
  match operands with
  | [_, right] =>
    if Operand.isEmptyList right then .ok (w.fixed (Sql.constant false)) else binary w .in [.keyword .in] operands
  | _ => binary w .in [.keyword .in] operands

/-- Units of an operator over its operands. -/
def body (w : Writer τ) (operator : Operator) (operands : List (Operand τ)) : Except Failure (List τ) :=
  match operator with
  | .and => junction w .and true operands
  | .or => junction w .or false operands
  | .equalTo => equality w operator .equal [.keyword .is, .keyword .null] operands
  | .notEqualTo => equality w operator .notEqual [.keyword .is, .keyword .not, .keyword .null] operands
  | .lessThan => binary w operator [.sign .less] operands
  | .lessThanOrEqualTo => binary w operator [.sign .lessOrEqual] operands
  | .greaterThan => binary w operator [.sign .greater] operands
  | .greaterThanOrEqualTo => binary w operator [.sign .greaterOrEqual] operands
  | .like => binary w operator [.keyword .like] operands
  | .in => membership w operands
  | .between =>
    match operands with
    | [subject, low, high] => do
      let s ← subject.2
      let l ← low.2
      let h ← high.2
      return s ++ w.token (.keyword .between) :: l ++ w.token (.keyword .and) :: h
    | _ => .error (.operandCount operator 3 operands.length)
  | .isNull =>
    match operands with
    | [subject] => (· ++ w.fixed [.keyword .is, .keyword .null]) <$> subject.2
    | _ => .error (.operandCount operator 1 operands.length)

end Condition

/-! ## Terms -/

namespace Sql

variable {τ : Type}

mutual

/-- Units of a term; a condition stands between parentheses. -/
def termUnits (w : Writer τ) (fields : FieldMap) : Term → Except Failure (List τ)
  | .field f => .ok (w.fixed (fieldTokens fields f))
  | .literal v => w.literal v
  | .condition c => w.parenthesized <$> conditionUnits w fields c

/-- Units of a condition. -/
def conditionUnits (w : Writer τ) (fields : FieldMap) : Condition → Except Failure (List τ)
  | ⟨operator, terms, negated⟩ => do
    let units ← Condition.body w operator (operands w fields terms)
    return if negated then w.token (.keyword .not) :: w.parenthesized units else units

/-- Terms with their units. -/
def operands (w : Writer τ) (fields : FieldMap) : List Term → List (Condition.Operand τ)
  | [] => []
  | t :: ts => (t, termUnits w fields t) :: operands w fields ts

end

/-- Tokens of a condition. -/
def conditionTokens (ctx : Context) (c : Condition) : Tokens := conditionUnits ctx.writer ctx.fields c

end Sql

end BoundSql
