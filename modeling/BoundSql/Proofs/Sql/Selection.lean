import BoundSql.Proofs.Condition.Identifiers
import BoundSql.Proofs.Sql.Meaning

/-!
# Conditions that select identifiers

A `Selection` is a condition on an identifying field that names integers: one, all of a range, those of a list, or those
of any of several selections. There are two ways to find out which integers these are: listing them, and asking for each
row whether the condition is true. Both come to the same (`Selection.mem_identifiers`, `Selection.truthSeen_eq`).
-/

namespace BoundSql

open Sql (Truth Database)

/-- Integers that an identifying field may have. -/
inductive Selection where
  | id (n : Int64)
  | range (low high : Int64) (ordered : low ≤ high)
  | among (ids : List Int64)
  | any (parts : List Selection)

/-- An integer as a scalar. -/
def Scalar.int (n : Int64) : Scalar := ⟨.int n, rfl⟩

namespace Selection

mutual

/-- The condition on an identifying field. -/
def formula (identifier : FieldRef) : Selection → Formula
  | id n => .equalTo identifier (.int n)
  | range low high _ => .between identifier (.int low) (.int high)
  | among ids => .inList identifier (ids.map Scalar.int)
  | any parts => .disj (formulas identifier parts)

/-- The conditions on an identifying field. -/
def formulas (identifier : FieldRef) : List Selection → List Formula
  | [] => []
  | s :: ss => s.formula identifier :: formulas identifier ss

end

mutual

/-- Whether an integer is selected. -/
def has (n : Int) : Selection → Bool
  | id m => n = m.toInt
  | range low high _ => low.toInt ≤ n ∧ n ≤ high.toInt
  | among ids => ids.any (n = ·.toInt)
  | any parts => anyHas n parts

/-- Whether an integer is selected by one of several selections. -/
def anyHas (n : Int) : List Selection → Bool
  | [] => false
  | s :: ss => s.has n || anyHas n ss

end

end Selection

/-! ## The integers listed -/

/-- **A range lists the integers between its bounds.** -/
theorem mem_inclusiveRange {low high : Int64} (h : low ≤ high) {ids : List Int64}
    (hids : inclusiveRange low high = .ok ids) {n : Int} :
    (∃ id ∈ ids, id.toInt = n) ↔ low.toInt ≤ n ∧ n ≤ high.toInt := by
  have hle : low.toInt ≤ high.toInt := Int64.le_iff_toInt_le.1 h
  rw [← List.mem_map, map_toInt_inclusiveRange hids, List.mem_map]
  simp only [walked, if_pos h, List.mem_range]
  constructor
  · rintro ⟨k, hk, rfl⟩
    omega
  · rintro ⟨hn, hn'⟩
    exact ⟨(n - low.toInt).toNat, by omega, by omega⟩

theorem Value.integers_of_ints (ids : List Int64) : Value.integers (.list (ids.map .int)) = .ok ids := by
  show (ids.map Value.int).mapM Value.integer = .ok ids
  rw [mapM_eq_ok, List.forall₂_map_left_iff]
  exact List.forall₂_same.2 fun _ _ => rfl

namespace Selection

section

variable {identifier : FieldRef}

theorem anchoredIntegers_eq {terms : List Term} (h : terms.any (·.references identifier) = true) :
    Condition.anchoredIntegers identifier terms = some <$> (terms.filterMap Term.literal?).mapM Value.integer :=
  if_pos h

theorem any_references (terms : List Term) :
    (Term.field identifier :: terms).any (·.references identifier) = true := by
  rw [List.any_cons, Term.references, decide_eq_true rfl, Bool.true_or]

theorem identifiers_id (n : Int64) :
    ((id n).formula identifier).condition.identifiers identifier = .ok [n] := by
  show Condition.equalIdentifiers identifier [.field identifier, .literal (.int n)] = .ok [n]
  rw [Condition.equalIdentifiers, anchoredIntegers_eq (any_references _)]
  rfl

theorem identifiers_range {low high : Int64} (ordered : low ≤ high) :
    ((range low high ordered).formula identifier).condition.identifiers identifier = inclusiveRange low high := by
  show Condition.rangeIdentifiers identifier [.field identifier, .literal (.int low), .literal (.int high)] = _
  rw [Condition.rangeIdentifiers, anchoredIntegers_eq (any_references _)]
  rfl

theorem identifiers_among (ids : List Int64) :
    ((among ids).formula identifier).condition.identifiers identifier = .ok ids := by
  have hitems : (ids.map Scalar.int).map Scalar.value = ids.map .int := List.map_map
  show Condition.memberIdentifiers identifier
    [.field identifier, .literal (.list ((ids.map Scalar.int).map Scalar.value))] = .ok ids
  rw [hitems, Condition.memberIdentifiers, any_references]
  show (do let lists ← [Value.list (ids.map .int)].mapM Value.integers; if true then .ok (lists.getLastD []) else _) = _
  rw [List.mapM_cons, Value.integers_of_ints]
  rfl

/-- The integers that several selections list, one after the other. -/
def branches (identifier : FieldRef) (parts : List Selection) : Except Failure (List Int64) :=
  Condition.branchIdentifiers identifier ((Formula.conditions (formulas identifier parts)).map .condition)

theorem branches_nil : branches identifier [] = .ok [] := rfl

theorem branches_cons (s : Selection) (parts : List Selection) : branches identifier (s :: parts) =
    ((s.formula identifier).condition.identifiers identifier).bind fun ids => (ids ++ ·) <$> branches identifier parts :=
  rfl

theorem identifiers_any (parts : List Selection) :
    ((any parts).formula identifier).condition.identifiers identifier =
      List.eraseDups <$> branches identifier parts :=
  congrArg (· <$> branches identifier parts) (funext firstOccurrences_eq)

end

mutual

/-- **The identifiers of a selection are the integers that it selects.** -/
theorem mem_identifiers {identifier : FieldRef} (s : Selection) {ids : List Int64}
    (h : (s.formula identifier).condition.identifiers identifier = .ok ids) (n : Int) :
    (∃ id ∈ ids, id.toInt = n) ↔ s.has n = true := by
  cases s with
  | id m =>
    rw [identifiers_id] at h
    cases h
    rw [has, decide_eq_true_eq, eq_comm (a := n)]
    simp
  | range low high ordered =>
    rw [identifiers_range] at h
    rw [mem_inclusiveRange ordered h, has, decide_eq_true_eq]
  | among ids' =>
    rw [identifiers_among] at h
    cases h
    rw [has, List.any_eq_true]
    simp only [decide_eq_true_eq, eq_comm (a := n)]
  | any parts =>
    rw [identifiers_any] at h
    obtain ⟨all, hall, rfl⟩ := map_eq_ok.1 h
    simp only [List.mem_eraseDups]
    exact mem_branches parts hall n

/-- The identifiers of several selections are the integers that one of them selects. -/
theorem mem_branches {identifier : FieldRef} (parts : List Selection) {ids : List Int64}
    (h : branches identifier parts = .ok ids) (n : Int) : (∃ id ∈ ids, id.toInt = n) ↔ anyHas n parts = true := by
  cases parts with
  | nil =>
    cases h
    simp [anyHas]
  | cons s parts =>
    rw [branches_cons] at h
    obtain ⟨ids₁, hids₁, h⟩ := bind_eq_ok.1 h
    obtain ⟨ids₂, hids₂, rfl⟩ := map_eq_ok.1 h
    rw [anyHas, Bool.or_eq_true, ← mem_identifiers s hids₁ n, ← mem_branches parts hids₂ n]
    constructor
    · rintro ⟨id, hid, rfl⟩
      exact (List.mem_append.1 hid).imp (fun hid => ⟨id, hid, rfl⟩) fun hid => ⟨id, hid, rfl⟩
    · rintro (⟨id, hid, rfl⟩ | ⟨id, hid, rfl⟩)
      · exact ⟨id, List.mem_append_left _ hid, rfl⟩
      · exact ⟨id, List.mem_append_right _ hid, rfl⟩

end

end Selection

/-! ## The rows for which the condition is true -/

namespace Sql

namespace Truth

theorem and_ofBool (a b : Bool) : (ofBool a).and (ofBool b) = ofBool (a && b) := by
  cases a <;> cases b <;> rfl

theorem or_ofBool (a b : Bool) : (ofBool a).or (ofBool b) = ofBool (a || b) := by
  cases a <;> cases b <;> rfl

theorem any_ofBool {α : Type} (p : α → Bool) (as : List α) : any (as.map fun a => ofBool (p a)) = ofBool (as.any p) := by
  induction as with
  | nil => rfl
  | cons a as ih =>
    rw [List.map_cons, List.any_cons, ← or_ofBool, ← ih]
    rfl

theorem ofBool_eq_holds {b : Bool} : ofBool b = holds ↔ b = true := by cases b <;> decide

end Truth

/-- A value that a database takes for an integer: it compares other integers with it as with that integer. -/
structure Database.Takes {V : Type} (db : Database V) (v : V) (m : Int) : Prop where
  equal : ∀ n, db.compare (.sign .equal) (db.integer n) v = .ofBool (n = m)
  atLeast : ∀ n, db.compare (.sign .greaterOrEqual) (db.integer n) v = .ofBool (m ≤ n)
  atMost : ∀ n, db.compare (.sign .lessOrEqual) (db.integer n) v = .ofBool (n ≤ m)

end Sql

namespace Selection

variable {V : Type} {db : Database V} {fields : FieldMap} {row : List String → V} {seen : Value → Value}
  {identifier : FieldRef} {n : Int}

mutual

/-- **The condition of a selection is true for the rows that it selects**, and false for all others. -/
theorem truthSeen_eq (hrow : row (fields.path identifier) = db.integer n)
    (hseen : ∀ m : Int64, db.Takes (db.argument (seen (.int m))) m.toInt) (s : Selection) :
    (s.formula identifier).truthSeen db fields row seen = .ofBool (s.has n) := by
  cases s with
  | id m =>
    show db.compare (.sign .equal) (row (fields.path identifier)) (db.argument (seen (.int m))) = _
    rw [hrow, (hseen m).equal, has]
  | range low high ordered =>
    show (db.compare (.sign .greaterOrEqual) (row (fields.path identifier)) (db.argument (seen (.int low)))).and
      (db.compare (.sign .lessOrEqual) (row (fields.path identifier)) (db.argument (seen (.int high)))) = _
    rw [hrow, (hseen low).atLeast, (hseen high).atMost, Truth.and_ofBool, has, Bool.decide_and]
  | among ids =>
    have hitems : ((ids.map Scalar.int).map fun v => Formula.literal db fields row seen v.value).map
        (db.compare (.sign .equal) (row (fields.path identifier))) =
        ids.map fun id => .ofBool (n = id.toInt) := by
      rw [List.map_map, List.map_map, hrow]
      exact List.map_congr_left fun id _ => (hseen id).equal n
    show Truth.any (((ids.map Scalar.int).map fun v => Formula.literal db fields row seen v.value).map
      (db.compare (.sign .equal) (row (fields.path identifier)))) = _
    rw [hitems, Truth.any_ofBool, has]
  | any parts =>
    show Truth.any (Formula.truthsSeen db fields row seen (formulas identifier parts)) = _
    rw [truthsSeen_eq hrow hseen parts, has]

/-- The conditions of several selections are true together for the rows that one of them selects. -/
theorem truthsSeen_eq (hrow : row (fields.path identifier) = db.integer n)
    (hseen : ∀ m : Int64, db.Takes (db.argument (seen (.int m))) m.toInt) (parts : List Selection) :
    Truth.any (Formula.truthsSeen db fields row seen (formulas identifier parts)) = .ofBool (anyHas n parts) := by
  cases parts with
  | nil => rfl
  | cons s parts =>
    show ((s.formula identifier).truthSeen db fields row seen).or
      (Truth.any (Formula.truthsSeen db fields row seen (formulas identifier parts))) = _
    rw [truthSeen_eq hrow hseen s, truthsSeen_eq hrow hseen parts, Truth.or_ofBool, anyHas]

end

end Selection

end BoundSql
