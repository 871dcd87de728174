import BoundSql.FirstOccurrences
import BoundSql.Value.Normal
/-!
# Identifiers of a condition

The rows that a condition selects by their identifying field, as a list of integers.  Equality, ranges and membership
name identifiers, and so does a disjunction of such conditions.  Nothing else does, and no negation.

* `Condition.identifiers` : the integers in the order in which the condition names them.
* `inclusiveRange` : a range walks from its first bound to its second, also downwards.
-/

namespace BoundSql

/-- Longest range that is listed. -/
def rangeLimit : Nat := 1000000

/-- Integers from one bound to the other, both included, upwards or downwards. -/
def inclusiveRange (first last : Int64) : Except Failure (List Int64) :=
  let span := (last.toInt - first.toInt).natAbs + 1
  if rangeLimit < span then .error (.rangeTooLarge first last span rangeLimit)
  else if first ≤ last then .ok ((List.range span).map fun (k : Nat) => Int64.ofInt (first.toInt + k))
  else .ok ((List.range span).map fun (k : Nat) => Int64.ofInt (first.toInt - k))

namespace Condition

/-- Literals of a node as integers; they are looked at only if the node refers to the identifying field. -/
def anchoredIntegers (identifier : FieldRef) (terms : List Term) : Except Failure (Option (List Int64)) :=
  if terms.any (·.references identifier) then some <$> (terms.filterMap Term.literal?).mapM Value.integer
  else .ok none

/-- Values that the identifying field is equal to; none if another field is compared. -/
def equalIdentifiers (identifier : FieldRef) (terms : List Term) : Except Failure (List Int64) :=
  (·.getD []) <$> anchoredIntegers identifier terms

/-- Range of the identifying field, which needs exactly two bounds. -/
def rangeIdentifiers (identifier : FieldRef) (terms : List Term) : Except Failure (List Int64) := do
  match ← anchoredIntegers identifier terms with
  | some [first, last] => inclusiveRange first last
  | _ => .error (.notAnchored "BETWEEN" identifier)

/-- Members of the last list literal; every literal must be a list of integers. -/
def memberIdentifiers (identifier : FieldRef) (terms : List Term) : Except Failure (List Int64) := do
  let lists ← (terms.filterMap Term.literal?).mapM Value.integers
  if terms.any (·.references identifier) then .ok (lists.getLastD []) else .error (.notAnchored "IN" identifier)

mutual

/-- Identifiers that a condition names; those of a disjunction without repetitions. -/
def identifiers (identifier : FieldRef) : Condition → Except Failure (List Int64)
  | ⟨operator, terms, negated⟩ =>
    if negated then .error .negatedIdentifiers
    else match operator with
      | .or => firstOccurrences <$> branchIdentifiers identifier terms
      | .equalTo => equalIdentifiers identifier terms
      | .between => rangeIdentifiers identifier terms
      | .in => memberIdentifiers identifier terms
      | other => .error (.operatorWithoutIdentifiers other)

/-- Identifiers of the branches of a disjunction, one branch after the other. -/
def branchIdentifiers (identifier : FieldRef) : List Term → Except Failure (List Int64)
  | [] => .ok []
  | .condition c :: rest => do
    let ids ← c.identifiers identifier
    return ids ++ (← branchIdentifiers identifier rest)
  | _ :: _ => .error .branchNotCondition

end

end Condition

end BoundSql
