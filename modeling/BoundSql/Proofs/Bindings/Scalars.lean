import BoundSql.Bindings.Binder

/-!
# The scalars that a walk meets

What a binder meets in a tree is a list: its literals, depth first and left to right, with lists flattened and missing
values left out (`Condition.scalars`). A walk binds this list one scalar after the other (`bindCondition_eq` and its
companions), so what is known of `Binder.bindScalars` is known of every walk.
-/

namespace BoundSql

/-! ## Scalars of a tree -/

mutual

/-- Scalars of a term, in order. -/
def Term.scalars : Term → List Value
  | .field _ => []
  | .literal v => Binder.scalarsOf v
  | .condition c => c.scalars

/-- Scalars of a condition, in order. -/
def Condition.scalars : Condition → List Value
  | ⟨_, terms, _⟩ => Term.allScalars terms

/-- Scalars of several terms, in order. -/
def Term.allScalars : List Term → List Value
  | [] => []
  | t :: ts => t.scalars ++ Term.allScalars ts

end

theorem Condition.scalars_eq (c : Condition) : c.scalars = Term.allScalars c.terms := by
  cases c
  rw [Condition.scalars]

theorem Term.allScalars_append (ts us : List Term) :
    Term.allScalars (ts ++ us) = Term.allScalars ts ++ Term.allScalars us := by
  induction ts with
  | nil => rfl
  | cons t ts ih => rw [List.cons_append, Term.allScalars, Term.allScalars, ih, List.append_assoc]

/-! ## Walks are runs -/

namespace Binder

variable (b : Binder)

theorem bindScalars_append (m : Bindings) (vs us : List Value) : b.bindScalars m (vs ++ us) =
    match b.bindScalars m vs with
    | ⟨m, none⟩ => b.bindScalars m us
    | ⟨m, some f⟩ => ⟨m, some f⟩ := by
  induction vs generalizing m with
  | nil => rfl
  | cons v vs ih =>
    rw [List.cons_append, bindScalars, bindScalars]
    cases b.bindScalar m v with
    | error f => rfl
    | ok m => exact ih m

/-- **A walk binds the scalars of its terms one after the other.** -/
theorem bindTerms_eq (m : Bindings) (terms : List Term) :
    b.bindTerms m terms = b.bindScalars m (Term.allScalars terms) := by
  fun_induction bindTerms b m terms with
  | case1 m => rfl
  | case2 m f rest ih => exact ih
  | case3 m c rest ih =>
    rw [ih, Term.allScalars_append, Term.allScalars, Term.scalars, Condition.scalars_eq]
  | case4 m v rest m' h ih =>
    rw [ih, Term.allScalars, Term.scalars, bindScalars_append, ← bindValue, h]
  | case5 m v rest m' f h =>
    rw [Term.allScalars, Term.scalars, bindScalars_append, ← bindValue, h]

theorem bindCondition_eq (m : Bindings) (c : Condition) : b.bindCondition m c = b.bindScalars m c.scalars := by
  rw [bindCondition, bindTerms_eq, Condition.scalars_eq]

theorem bindConditions_eq (m : Bindings) (cs : List Condition) :
    b.bindConditions m cs = b.bindScalars m (cs.flatMap Condition.scalars) := by
  induction cs generalizing m with
  | nil => rfl
  | cons c cs ih =>
    rw [bindConditions, List.flatMap_cons, bindScalars_append, ← bindCondition_eq]
    rcases b.bindCondition m c with ⟨m', _ | f⟩
    · exact ih m'
    · rfl

theorem bindValues_eq (m : Bindings) (vs : List Value) :
    b.bindValues m vs = b.bindScalars m (vs.flatMap scalarsOf) := by
  induction vs generalizing m with
  | nil => rfl
  | cons v vs ih =>
    rw [bindValues, List.flatMap_cons, bindScalars_append, ← bindValue]
    rcases b.bindValue m v with ⟨m', _ | f⟩
    · exact ih m'
    · rfl

end Binder

end BoundSql
