import BoundSql.Value
/-!
# Conditions

A condition is a tree: an operator over terms in a fixed order, which may be negated as a whole.  A term is a literal,
a reference to a field, or a condition in its turn.

* `Condition.searchTerms` : the terms of one node that satisfy a test, as many as asked for.
* `Condition.sameAs` : equality that compares numbers numerically.
-/

namespace BoundSql

/-- What a condition does with its terms. -/
inductive Operator where
  | and
  | or
  | equalTo
  | notEqualTo
  | lessThan
  | lessThanOrEqualTo
  | greaterThan
  | greaterThanOrEqualTo
  | like
  | between
  | in
  | isNull
  deriving DecidableEq

namespace Operator

/-- Every operator. -/
def all : List Operator :=
  [.and, .or, .equalTo, .notEqualTo, .lessThan, .lessThanOrEqualTo, .greaterThan, .greaterThanOrEqualTo, .like,
    .between, .in, .isNull]

/-- Name of an operator in written conditions and in messages. -/
def name : Operator → String
  | .and => "and"
  | .or => "or"
  | .equalTo => "equal_to"
  | .notEqualTo => "not_equal_to"
  | .lessThan => "less_than"
  | .lessThanOrEqualTo => "less_than_or_equal_to"
  | .greaterThan => "greater_than"
  | .greaterThanOrEqualTo => "greater_than_or_equal_to"
  | .like => "like"
  | .between => "between"
  | .in => "in"
  | .isNull => "is_null"

/-- Operator of a name. -/
def ofName? (s : String) : Option Operator := all.find? (·.name = s)

theorem ofName?_name (o : Operator) : ofName? o.name = some o := by cases o <;> decide

/-- Whether the operator joins conditions. -/
def isLogical : Operator → Bool
  | .and | .or => true
  | _ => false

end Operator

/-- Reference to a field, qualified by the table or alias it belongs to or not. -/
structure FieldRef where
  entity : Option String
  field : String
  deriving DecidableEq

namespace FieldRef

/-- Reference without a qualifier. -/
def bare (field : String) : FieldRef := ⟨none, field⟩

/-- Text of a reference in messages. -/
def display (f : FieldRef) : String :=
  match f.entity with
  | some entity => entity ++ "." ++ f.field
  | none => f.field

end FieldRef

mutual

/-- One operand of a condition. -/
inductive Term where
  | literal (value : Value)
  | field (ref : FieldRef)
  | condition (inner : Condition)

/-- An operator over terms, negated as a whole or not. -/
structure Condition where
  operator : Operator
  terms : List Term
  negated : Bool

end

namespace Term

instance : Inhabited Term := ⟨.literal .null⟩

/-- Whether a term is a reference to exactly this field. -/
def references (target : FieldRef) : Term → Bool
  | .field ref => ref = target
  | _ => false

/-- Value of a literal term. -/
def literal? : Term → Option Value
  | .literal v => some v
  | _ => none

/-- Whether a term is a literal. -/
def isLiteral : Term → Bool
  | .literal _ => true
  | _ => false

/-- Whether a term is a condition. -/
def isCondition : Term → Bool
  | .condition _ => true
  | _ => false

end Term

namespace Condition

instance : Inhabited Condition := ⟨⟨.and, [], false⟩⟩

/-! ## Building conditions -/

/-- An operator with its terms. -/
def ofTerms (operator : Operator) (terms : List Term) : Condition := ⟨operator, terms, false⟩

/-- Every one of the conditions. -/
def conj (conditions : List Condition) : Condition := ofTerms .and (conditions.map .condition)

/-- At least one of the conditions. -/
def disj (conditions : List Condition) : Condition := ofTerms .or (conditions.map .condition)

/-- A field compared with a value. -/
def compare (operator : Operator) (field : FieldRef) (value : Value) : Condition :=
  ofTerms operator [.field field, .literal value]

/-- A field equal to a value. -/
def equalTo (field : FieldRef) (value : Value) : Condition := compare .equalTo field value

/-- A field that matches a pattern. -/
def like (field : FieldRef) (pattern : String) : Condition := compare .like field (.text pattern)

/-- A field between two bounds, in the order given. -/
def between (field : FieldRef) (low high : Value) : Condition :=
  ofTerms .between [.field field, .literal low, .literal high]

/-- A field among some values. -/
def inList (field : FieldRef) (values : List Value) : Condition := ofTerms .in [.field field, .literal (.list values)]

/-- A field without a value. -/
def isNull (field : FieldRef) : Condition := ofTerms .isNull [.field field]

/-- The opposite condition. -/
def negate (c : Condition) : Condition := { c with negated := !c.negated }

/-! ## Searching -/

/-- Terms of the root that satisfy a test, in order; at most `count` of them, or all. -/
def searchTerms (c : Condition) (test : Term → Bool) (count : Option Nat) : List Term :=
  match count with
  | some n => (c.terms.filter test).take n
  | none => c.terms.filter test

/-- Whether the root refers to a field. -/
def refersTo (c : Condition) (field : FieldRef) : Bool := c.terms.any (·.references field)

/-- Literals of the root, in order. -/
def literals (c : Condition) : List Value := c.terms.filterMap Term.literal?

end Condition

/-! ## Numeric equality -/

mutual

/-- Equality of terms, numbers compared numerically. -/
def Term.sameAs : Term → Term → Bool
  | .literal a, .literal b => a.sameAs b
  | .field a, .field b => a = b
  | .condition a, .condition b => a.sameAs b
  | _, _ => false

/-- Equality of conditions, numbers compared numerically. -/
def Condition.sameAs : Condition → Condition → Bool
  | ⟨o, ts, n⟩, ⟨o', ts', n'⟩ => o = o' && n == n' && Term.allSame ts ts'

/-- Equally many terms, each the same as its partner. -/
def Term.allSame : List Term → List Term → Bool
  | [], [] => true
  | a :: as, b :: bs => a.sameAs b && Term.allSame as bs
  | _, _ => false

end

end BoundSql
