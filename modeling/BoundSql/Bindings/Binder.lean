import BoundSql.Bindings
import BoundSql.Placeholder
/-!
# Binders

A binder walks over conditions and values and binds every literal that it meets: depth first, left to right, each
canonical text once.  Missing values are passed over, and so are texts that it was told to ignore.  A value without a
canonical text stops the walk; what was bound before stays bound.

* `Binder.bindTerms` : the walk, with the terms that are still to come in a list.
* `Binder.bindCondition`, `Binder.bindValue` : the two starting points.
-/

namespace BoundSql

/-! ## Weight of the terms to come -/

mutual

/-- Count of the nodes of a term. -/
def Term.weight : Term → Nat
  | .literal _ => 1
  | .field _ => 1
  | .condition c => c.weight + 1

/-- Count of the nodes below a condition. -/
def Condition.weight : Condition → Nat
  | ⟨_, terms, _⟩ => Term.totalWeight terms

/-- Count of the nodes of several terms. -/
def Term.totalWeight : List Term → Nat
  | [] => 0
  | t :: ts => t.weight + Term.totalWeight ts

end

theorem Term.totalWeight_append (ts us : List Term) :
    Term.totalWeight (ts ++ us) = Term.totalWeight ts + Term.totalWeight us := by
  induction ts with
  | nil => simp [Term.totalWeight]
  | cons t ts ih => simp [Term.totalWeight, ih]; omega

/-! ## Binding -/

/-- How values are bound: the scheme of the tokens, and canonical texts that are never bound. -/
structure Binder where
  scheme : Placeholder.Scheme
  ignored : List String

/-- What a walk leaves: the bindings, and the failure that stopped it. -/
structure Bound where
  bindings : Bindings
  failure? : Option Failure

namespace Binder

/-- Binder of a style that ignores nothing. -/
def ofStyle (style : Placeholder.Style) : Binder := ⟨style.scheme, []⟩

/-- Binder that ignores further texts. -/
def ignoring (b : Binder) (names : List String) : Binder := { b with ignored := b.ignored ++ names }

/-- Bindings with one more scalar, unless its text is ignored or bound already. -/
def bindScalar (b : Binder) (m : Bindings) (v : Value) : Except Failure Bindings := do
  let canonical ← v.canonical
  if b.ignored.contains canonical || m.contains canonical then return m
  else
    let token ← b.scheme.token v canonical m.nextPosition
    return m.push canonical token v

/-- Scalars bound one after the other, up to the first failure. -/
def bindScalars (b : Binder) : Bindings → List Value → Bound
  | m, [] => ⟨m, none⟩
  | m, v :: vs =>
    match b.bindScalar m v with
    | .ok m => bindScalars b m vs
    | .error f => ⟨m, some f⟩

/-- Scalars that a value stands for: the items of a list, or the value, without missing values. -/
def scalarsOf : Value → List Value
  | .null => []
  | .list items => items.filter fun item => !item.isNull
  | v => [v]

/-- Bindings with what a value stands for. -/
def bindValue (b : Binder) (m : Bindings) (v : Value) : Bound := b.bindScalars m (scalarsOf v)

/-- Bindings with the literals of some terms; the terms of a condition come before those that follow it. -/
def bindTerms (b : Binder) (m : Bindings) (terms : List Term) : Bound :=
  match terms with
  | [] => ⟨m, none⟩
  | .field _ :: rest => b.bindTerms m rest
  | .condition c :: rest => b.bindTerms m (c.terms ++ rest)
  | .literal v :: rest =>
    match b.bindValue m v with
    | ⟨m, none⟩ => b.bindTerms m rest
    | ⟨m, some f⟩ => ⟨m, some f⟩
termination_by Term.totalWeight terms
decreasing_by
  · simp [Term.totalWeight, Term.weight]
  · cases c
    simp only [Term.totalWeight, Term.weight, Condition.weight, Term.totalWeight_append]
    omega
  · simp [Term.totalWeight, Term.weight]

/-- Bindings with the literals of a condition. -/
def bindCondition (b : Binder) (m : Bindings) (c : Condition) : Bound := b.bindTerms m c.terms

/-- Bindings with the literals of several conditions. -/
def bindConditions (b : Binder) : Bindings → List Condition → Bound
  | m, [] => ⟨m, none⟩
  | m, c :: cs =>
    match b.bindCondition m c with
    | ⟨m, none⟩ => bindConditions b m cs
    | ⟨m, some f⟩ => ⟨m, some f⟩

/-- Bindings with what several values stand for. -/
def bindValues (b : Binder) : Bindings → List Value → Bound
  | m, [] => ⟨m, none⟩
  | m, v :: vs =>
    match b.bindValue m v with
    | ⟨m, none⟩ => bindValues b m vs
    | ⟨m, some f⟩ => ⟨m, some f⟩

end Binder

/-- The bindings of a walk that was not stopped. -/
def Bound.toExcept (b : Bound) : Except Failure Bindings :=
  match b.failure? with
  | none => .ok b.bindings
  | some f => .error f

end BoundSql
