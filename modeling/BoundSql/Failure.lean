import BoundSql.Condition
/-!
# Failures

Why a request was refused, or what the store reported.  A failure is a cause; its kind and its wording are functions
of the cause.

* `Failure.kind` : which of five groups a cause belongs to.
* `Failure.message` : the wording.
* `Failure.display` : the wording after the kind.
-/

namespace BoundSql

namespace Failure

/-- Groups of failures. -/
inductive Kind where
  | invalidArgument
  | unsupportedExpression
  | notFound
  | execution
  | serialization
  deriving DecidableEq

/-- Name of a group. -/
def Kind.name : Kind → String
  | .invalidArgument => "invalid_argument"
  | .unsupportedExpression => "unsupported_expression_type"
  | .notFound => "not_found"
  | .execution => "execution"
  | .serialization => "serialization"

/-- Operations that need a condition. -/
inductive Action where
  | update
  | delete
  deriving DecidableEq

/-- Plural of an operation. -/
def Action.plural : Action → String
  | .update => "updates"
  | .delete => "deletes"

end Failure

/-- Cause of a failure. -/
inductive Failure where
  /-- A value without a canonical text. -/
  | nonFiniteText (x : Binary64)
  | nullText
  | listText
  /-- A value that is no integer, or no list. -/
  | notWhole (x : Binary64)
  | textNotInteger (s : String)
  | notInteger (v : Value)
  | notList (v : Value)
  /-- A JSON integer above the signed range. -/
  | integerOutOfRange (n : Nat)
  /-- A field mapped twice. -/
  | duplicateField (field : String)
  /-- JSON that holds no fields. -/
  | notContainer (json : String)
  /-- A field that a record lacks. -/
  | keyNotFound (key : String)
  /-- A record that holds a list. -/
  | listInField (field : String)
  /-- A condition that names no identifiers. -/
  | negatedIdentifiers
  | operatorWithoutIdentifiers (operator : Operator)
  | branchNotCondition
  | notAnchored (keyword : String) (identifier : FieldRef)
  | rangeTooLarge (first last : Int64) (span limit : Nat)
  /-- A statement that cannot be written. -/
  | operandCount (operator : Operator) (expected found : Nat)
  | unbound (v : Value)
  | unknownOrdering (field : String)
  | noTable
  | noRow
  | noColumn
  | noAssignment
  /-- A request that an operation refuses. -/
  | conditionRequired (action : Failure.Action)
  | noMappedChange
  | negatedUpdate
  | noIdentifier
  /-- What the store reported. -/
  | execution (message : String)
  /-- A text that does not follow its written form. -/
  | unreadable
  /-- A failure in a caller's words. -/
  | stated (kind : Failure.Kind) (message : String)
  /-- A failure that another one led to. -/
  | causedBy (failure source : Failure)

namespace Failure

/-- Group of a failure. -/
def kind : Failure → Kind
  | .keyNotFound _ => .notFound
  | .negatedIdentifiers | .operatorWithoutIdentifiers _ | .negatedUpdate => .unsupportedExpression
  | .execution _ => .execution
  | .unreadable => .serialization
  | .stated k _ => k
  | .causedBy f _ => f.kind
  | _ => .invalidArgument

/-- Wording of a failure. -/
def message : Failure → String
  | .nonFiniteText x => "Float value " ++ Layout.plain.text x ++ " cannot be normalized to a string"
  | .nullText => "Null cannot be normalized to a string"
  | .listText => "List cannot be normalized to a string"
  | .notWhole x => "Float " ++ Layout.plain.text x ++ " is not a whole number"
  | .textNotInteger s => "String \x27" ++ s ++ "\x27 cannot be normalized to an integer"
  | .notInteger v => "Value " ++ v.display ++ " cannot be normalized to an integer"
  | .notList v => "Value " ++ v.display ++ " cannot be normalized to a list"
  | .integerOutOfRange n => "integer out of range: " ++ toString n
  | .duplicateField field => "Duplicate field \x27" ++ field ++ "\x27 in field-column map"
  | .notContainer json => "JSON value is not a container: " ++ json
  | .keyNotFound key => "Key not found: " ++ key
  | .listInField field => "Field \x27" ++ field ++ "\x27 holds a list; expected a scalar"
  | .negatedIdentifiers => "Negated expressions are not supported for identifier extraction"
  | .operatorWithoutIdentifiers o =>
    "Expression type \x27" ++ o.name ++ "\x27 is not supported for identifier extraction"
  | .branchNotCondition => "Term of an OR expression is not an expression"
  | .notAnchored keyword identifier =>
    keyword ++ " expression is not a valid expression for \x27" ++ identifier.display ++ "\x27"
  | .rangeTooLarge first last span limit =>
    "BETWEEN range too large: " ++ toString first.toInt ++ " to " ++ toString last.toInt ++ " spans " ++
      toString span ++ " identifiers (max " ++ toString limit ++ ")"
  | .operandCount o expected found =>
    o.name ++ " expects " ++ toString expected ++ " operand(s), got " ++ toString found
  | .unbound v => "Value " ++ v.display ++ " has no bound placeholder"
  | .unknownOrdering field => "Unknown ordering field \x27" ++ field ++ "\x27"
  | .noTable => "SELECT requires at least one table"
  | .noRow => "INSERT requires at least one row"
  | .noColumn => "Multi-row INSERT requires at least one column"
  | .noAssignment => "UPDATE requires at least one column"
  | .conditionRequired action => "A condition is required for " ++ action.plural
  | .noMappedChange => "Change set has no mapped fields"
  | .negatedUpdate => "Negated conditions are not supported for identifier updates"
  | .noIdentifier => "no identifiers resolved"
  | .execution message => message
  | .unreadable => "unreadable text"
  | .stated _ message => message
  | .causedBy f _ => f.message

/-- Failure that led to this one, if it is known. -/
def source? : Failure → Option Failure
  | .causedBy _ source => some source
  | _ => none

/-- Whether a key was missing. -/
def isNotFound (f : Failure) : Bool := f.kind = .notFound

/-- Kind in brackets, then the wording. -/
def display (f : Failure) : String := "[" ++ f.kind.name ++ "] " ++ f.message

end Failure

end BoundSql
