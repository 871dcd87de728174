import BoundSql.Proofs.Bindings.Order
import BoundSql.Proofs.Resource.Values
import BoundSql.Proofs.Sql.Command

/-!
# Statements read back

What is written for a value is read back as one operand, which leads to an argument with the canonical text of the
value (`Expr.Stores`). So the text of a statement that changes a table is read back as the statement: an insertion as
its rows, cell by cell under the same columns (`Insert.units_read`), and an update and a removal as their assignments
and their condition (`Update.units_read`, `Delete.units_read`). The conditions for which it is known what they are read
back as are those on an identifier (`Condition.equalTo_read`, `Condition.inList_read`).
-/

namespace BoundSql

open Sql (Token Context Expr Reads Ends EndsList commandOf? tuple? assignment? where? nameTokens namePath)
open Placeholder (StandsFor Style)

/-! ## Values -/

namespace Sql

/-- What stores a value: the word for a missing value, or a placeholder that leads to an argument with its canonical
text. -/
def Expr.Stores (args : List Value) (v : Value) (e : Expr) : Prop :=
  if v.isNull then e = .null else ∃ token, e = .placeholder token ∧ StandsFor args v token

/-- Canonical text of the argument that an operand leads to. -/
def Expr.text? (args : List Value) : Expr → Option String
  | .placeholder token => (Placeholder.carried? token).bind fun position => (args[position - 1]?).bind Value.text?
  | _ => none

/-- What stores a value leads to its text. -/
theorem Expr.Stores.text?_eq {args : List Value} {v : Value} {e : Expr} (h : e.Stores args v) :
    e.text? args = v.text? := by
  unfold Stores at h
  split at h
  · next hnull =>
    rw [h]
    cases v with
    | null => rfl
    | _ => cases hnull
  · obtain ⟨token, rfl, position, a, canonical, hcarried, _, _, ha, hcanonical, hv⟩ := h
    rw [Expr.text?, hcarried, Option.bind_some, ha, Option.bind_some, Value.text?_eq_some.2 hcanonical,
      Value.text?_eq_some.2 hv]

variable {style : Style} {ctx : Context}

/-- **What is written for a value stores it.** -/
theorem boundTokens_stores {values : Bindings} (hvalues : values.OfScheme style.scheme) {v : Value} {ts : List Token}
    (h : boundTokens values v = .ok ts) : ∃ e, Reads .operand ts e ∧ e.Stores values.args v := by
  have hbound := boundAs_of_boundTokens hvalues h
  unfold BoundAs at hbound
  unfold Expr.Stores
  split at hbound
  · next hnull =>
    rw [hbound]
    exact ⟨.null, reads_null, if_pos hnull ▸ rfl⟩
  · next hnull =>
    obtain ⟨token, rfl, hstands⟩ := hbound
    refine ⟨.placeholder token, reads_placeholder token, ?_⟩
    rw [if_neg hnull]
    exact ⟨token, rfl, hstands⟩

end Sql

variable {style : Style} {ctx : Context}

/-! ## Removals of all rows that satisfy a condition -/

theorem Sql.scopeUnits_unlimited {table : String} {c : Condition} {ts : List Token}
    (h : Sql.scopeUnits ctx.writer ctx.fields table (some c) [] none none = .ok ts) :
    ∃ us, Sql.conditionTokens ctx c = .ok us ∧ ts = .keyword .where :: us := by
  obtain ⟨rows, hrows, h⟩ := bind_eq_ok.1 h
  cases pure_eq_ok.1 h
  obtain ⟨us, hus, rfl⟩ := map_eq_ok.1 hrows
  exact ⟨us, hus, rfl⟩

/-- **A removal is read back as its condition.** -/
theorem Delete.units_read {table : String} {c : Condition} {ts : List Token}
    (h : Delete.units ⟨table, some c, [], none, none⟩ ctx.writer ctx.fields = .ok ts) :
    ∃ us, Sql.conditionTokens ctx c = .ok us ∧ ∀ e, Reads .disjunction us e →
      commandOf? ts = some (.delete (namePath table) (some e)) := by
  obtain ⟨scope, hscope, h⟩ := bind_eq_ok.1 h
  cases pure_eq_ok.1 h
  obtain ⟨us, hus, rfl⟩ := Sql.scopeUnits_unlimited hscope
  refine ⟨us, hus, fun e he => ?_⟩
  rw [Condition.fixed_writer]
  exact Sql.commandOf?_delete table (Sql.endsList_where us) (Sql.where?_reads he)

/-! ## Conditions on an identifier -/

theorem Condition.tokens_body {operator : Operator} {terms : List Term} {ts : List Token}
    (h : Sql.conditionTokens ctx (.ofTerms operator terms) = .ok ts) :
    body ctx.writer operator (Sql.operands ctx.writer ctx.fields terms) = .ok ts := by
  rw [Sql.conditionTokens, ofTerms, Sql.conditionUnits] at h
  obtain ⟨us, hus, h⟩ := bind_eq_ok.1 h
  cases pure_eq_ok.1 h
  exact hus

section

variable (hvalues : ctx.values.OfScheme style.scheme) {ts : List Token}

include hvalues

/-- An integer is written as a placeholder that leads to its text. -/
theorem Sql.integer_read {id : Int64} (h : Sql.scalarTokens ctx (.int id) = .ok ts) :
    ∃ token, Reads .operand ts (.placeholder token) ∧ StandsFor ctx.values.args (.int id) token := by
  obtain ⟨e, he, hstores⟩ := Sql.boundTokens_stores hvalues (show Sql.boundTokens ctx.values (.int id) = .ok ts from h)
  obtain ⟨token, rfl, hstands⟩ := hstores
  exact ⟨token, he, hstands⟩

/-- Equality of a field and an integer is read back as it is. -/
theorem Condition.equalTo_read {f : FieldRef} {id : Int64}
    (h : Sql.conditionTokens ctx (.equalTo f (.int id)) = .ok ts) : ∃ token,
    Reads .disjunction ts (.compare (.sign .equal) (.column (ctx.fields.path f)) (.placeholder token)) ∧
      StandsFor ctx.values.args (.int id) token := by
  replace h := tokens_body h
  rw [operands_field, operands_literal] at h
  replace h : equality ctx.writer .equalTo .equal [.keyword .is, .keyword .null]
    [fieldOperand ctx f, literalOperand ctx (.int id)] = .ok ts := h
  have hnull : ¬(Value.int id).isNull = true := Bool.false_ne_true
  rw [equality_eq, if_neg hnull] at h
  obtain ⟨us, hus, rfl⟩ := binary_eq_ok .equalTo h
  obtain ⟨token, htoken, hstands⟩ := Sql.integer_read hvalues hus
  refine ⟨token, ?_, hstands⟩
  simpa using ((Sql.reads_field ctx.fields f).compare .equal htoken).predicateWhole

/-- Membership of a field in a list of integers is read back as it is. -/
theorem Condition.inList_read {f : FieldRef} {ids : List Int64} (hne : ids ≠ [])
    (h : Sql.conditionTokens ctx (.inList f (ids.map .int)) = .ok ts) : ∃ tokens,
    Reads .disjunction ts (.among (.column (ctx.fields.path f)) (tokens.map .placeholder)) ∧
      List.Forall₂ (fun id token => StandsFor ctx.values.args (.int id) token) ids tokens := by
  replace h := tokens_body h
  rw [operands_field, operands_literal] at h
  obtain ⟨id, ids, rfl⟩ := List.exists_cons_of_ne_nil hne
  obtain ⟨us, hus, rfl⟩ := binary_eq_ok .in h
  obtain ⟨parts, hparts, hus⟩ := bind_eq_ok.1 hus
  cases pure_eq_ok.1 hus
  replace hparts := mapM_eq_ok.1 hparts
  rw [List.forall₂_map_left_iff] at hparts
  obtain ⟨tokens, hreads, hstands⟩ := exists_forall₂ hparts fun _ _ hpart => Sql.integer_read hvalues hpart
  refine ⟨tokens, ?_, hstands⟩
  have hes : List.Forall₂ (Reads .disjunction) parts (tokens.map .placeholder) := by
    rw [List.forall₂_map_right_iff]
    exact hreads.imp fun _ _ hread => hread.predicate.predicateWhole
  have hne' : parts ≠ [] := by
    rintro rfl
    cases hparts
  have hread := ((Sql.reads_field ctx.fields f).among hne' hes).predicateWhole
  simpa [Sql.Writer.parenthesized, Sql.Writer.listed, Context.writer] using hread

end

/-! ## Insertions -/

variable (hvalues : ctx.values.OfScheme style.scheme)

/-- Cells that store the values of a row under some columns. -/
def Row.StoredAs (args : List Value) (columns : List String) (row : Row) (cells : List Expr) : Prop :=
  List.Forall₂ (fun column cell => Expr.Stores args ((row.get? column).getD .null) cell) columns cells

include hvalues

/-- A cell is read back as an operand that stores its value. -/
theorem Insert.cell_read {row : Row} {column : String} {ts : List Token}
    (h : (row.get? column).elim (.ok (ctx.writer.fixed [.keyword .null])) ctx.writer.cell = .ok ts) :
    ∃ e, Reads .operand ts e ∧ e.Stores ctx.values.args ((row.get? column).getD .null) := by
  cases hv : row.get? column with
  | none =>
    rw [hv] at h
    cases h
    exact ⟨.null, Sql.reads_null, rfl⟩
  | some v =>
    rw [hv] at h
    exact Sql.boundTokens_stores hvalues h

/-- A row is read back as the cells that store it. -/
theorem Insert.rowUnits_read {columns : List String} (hne : columns ≠ []) {row : Row} {ts : List Token}
    (h : Insert.rowUnits ctx.writer columns row = .ok ts) :
    ∃ cells, (∀ rest, tuple? (ts ++ rest) = some (cells, rest)) ∧ row.StoredAs ctx.values.args columns cells := by
  obtain ⟨parts, hparts, h⟩ := bind_eq_ok.1 h
  cases pure_eq_ok.1 h
  replace hparts := mapM_eq_ok.1 hparts
  obtain ⟨cells, hreads, hstored⟩ := exists_forall₂ hparts fun _ _ hpart => cell_read hvalues hpart
  have hne' : parts ≠ [] := by
    rintro rfl
    exact hne (List.forall₂_nil_right_iff.1 hparts)
  exact ⟨cells, Sql.tuple?_reads hne' hreads, hstored⟩

/-- Rows are read back as the tuples that store them, one after the other. -/
theorem Insert.filled_read {s : Insert} (hcolumns : s.columns ≠ []) (hrows : s.rows ≠ []) {ts : List Token}
    (h : Insert.units.filled s ctx.writer ([.keyword .insert, .keyword .into] ++ nameTokens s.table) = .ok ts) :
    ∃ tuples, commandOf? ts = some (.insert (namePath s.table) (s.columns.map namePath) tuples) ∧
      List.Forall₂ (Row.StoredAs ctx.values.args s.columns) s.rows tuples := by
  obtain ⟨parts, hparts, h⟩ := bind_eq_ok.1 h
  cases pure_eq_ok.1 h
  replace hparts := mapM_eq_ok.1 hparts
  obtain ⟨tuples, hreads, hstored⟩ := exists_forall₂ hparts fun _ _ hpart => rowUnits_read hvalues hcolumns hpart
  have hne : parts ≠ [] := by
    rintro rfl
    exact hrows (List.forall₂_nil_right_iff.1 hparts)
  rw [Condition.fixed_writer]
  exact ⟨tuples, Sql.commandOf?_insert s.table hcolumns hne hreads, hstored⟩

/-- **An insertion is read back as its rows**, or as a single one without values. -/
theorem Insert.units_read {s : Insert} {ts : List Token} (h : s.units ctx.writer = .ok ts) :
    s.columns = [] ∧ (∃ row, s.rows = [row]) ∧ commandOf? ts = some (.insertDefaults (namePath s.table)) ∨
    s.columns ≠ [] ∧ ∃ tuples,
      commandOf? ts = some (.insert (namePath s.table) (s.columns.map namePath) tuples) ∧
        List.Forall₂ (Row.StoredAs ctx.values.args s.columns) s.rows tuples := by
  have hfilled : s.columns.isEmpty ≠ true → s.rows ≠ [] →
      Insert.units.filled s ctx.writer ([.keyword .insert, .keyword .into] ++ nameTokens s.table) = .ok ts →
      s.columns ≠ [] ∧ ∃ tuples, commandOf? ts = some (.insert (namePath s.table) (s.columns.map namePath) tuples) ∧
        List.Forall₂ (Row.StoredAs ctx.values.args s.columns) s.rows tuples := by
    intro hempty hrows hts
    have hcolumns : s.columns ≠ [] := fun hnil => hempty (List.isEmpty_iff.2 hnil)
    exact ⟨hcolumns, filled_read hvalues hcolumns hrows hts⟩
  unfold Insert.units at h
  split at h
  · cases h
  · next row hrows =>
    split at h
    · next hempty =>
      cases h
      rw [Condition.fixed_writer]
      exact Or.inl ⟨List.isEmpty_iff.1 hempty, ⟨row, hrows⟩, Sql.commandOf?_defaults s.table⟩
    · next hempty => exact Or.inr (hfilled hempty (hrows ▸ List.cons_ne_nil _ _) h)
  · next hnil _ =>
    split at h
    · cases h
    · next hempty => exact Or.inr (hfilled hempty hnil h)

/-! ## Updates of all rows that satisfy a condition -/

/-- An assignment of what stores a value to its column. -/
def Sql.AssignedTo (args : List Value) (change : String × Value) (assignment : List String × Expr) : Prop :=
  assignment.1 = namePath change.1 ∧ assignment.2.Stores args change.2

/-- An assignment is read back as its column and an operand that stores its value. -/
theorem Update.assignment_read {change : String × Value} {ts : List Token}
    (h : Update.assignmentUnits ctx.writer change = .ok ts) : ∃ assignment,
    (∀ rest, Ends .operand rest → assignment? (ts ++ rest) = some (assignment, rest)) ∧
      Sql.AssignedTo ctx.values.args change assignment := by
  obtain ⟨us, hus, rfl⟩ := map_eq_ok.1 h
  obtain ⟨e, he, hstores⟩ := Sql.boundTokens_stores hvalues (show Sql.boundTokens ctx.values change.2 = .ok us from hus)
  rw [Condition.fixed_writer]
  exact ⟨(namePath change.1, e), fun rest hrest => Sql.assignment?_reads change.1 he hrest, rfl, hstores⟩

/-- **An update is read back as its assignments and its condition.** -/
theorem Update.units_read {table : String} {changes : Row} {c : Condition} {ts : List Token}
    (h : Update.units ⟨table, changes, some c, [], none⟩ ctx.writer ctx.fields = .ok ts) :
    ∃ us, Sql.conditionTokens ctx c = .ok us ∧ ∀ e, Reads .disjunction us e →
      ∃ assignments, commandOf? ts = some (.update (namePath table) assignments (some e)) ∧
        List.Forall₂ (Sql.AssignedTo ctx.values.args) changes.entries assignments := by
  unfold Update.units at h
  split at h
  · cases h
  · next hempty =>
    obtain ⟨parts, hparts, h⟩ := bind_eq_ok.1 h
    obtain ⟨scope, hscope, h⟩ := bind_eq_ok.1 h
    cases pure_eq_ok.1 h
    obtain ⟨us, hus, rfl⟩ := Sql.scopeUnits_unlimited hscope
    refine ⟨us, hus, fun e he => ?_⟩
    replace hparts := mapM_eq_ok.1 hparts
    obtain ⟨assignments, hreads, hassigned⟩ := exists_forall₂ hparts fun _ _ hpart => assignment_read hvalues hpart
    have hne : parts ≠ [] := by
      rintro rfl
      exact hempty (List.isEmpty_iff.2 (List.forall₂_nil_right_iff.1 hparts))
    refine ⟨assignments, ?_, hassigned⟩
    rw [Condition.fixed_writer]
    exact Sql.commandOf?_update table hne hreads (Sql.endsList_where us) (Sql.where?_reads he)

end BoundSql
