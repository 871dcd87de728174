import BoundSql.Proofs.Resource.Runs
import BoundSql.Proofs.Sql.Scope

/-!
# Direct updates and removals

A direct update or removal makes one call at most, which is about what the operation is about. From its text the
condition is read back as it is written, and with it the limit and the offset (`Resource.changesTarget_of_update`,
`Resource.changesTarget_of_delete`).
-/

namespace BoundSql

open Sql (Token Context changed? namePath)

/-- **A call that changes the rows of a target.** Its text tells these rows: the condition stands in it with the
placeholders of the bindings `m`, whose values are the arguments. -/
structure Call.ChangesTarget (c : Config) (target : Target) (m : Bindings) (us : List Token) (call : Call) : Prop where
  scheme : m.OfScheme c.placeholders.scheme
  args : call.args = m.args
  condition : Sql.conditionTokens ⟨m, c.fields⟩ target.condition = .ok us
  changed : ∃ criteria, changed? call.sql = some (namePath c.table.name,
    ⟨us, criteria, Sql.writtenLimit target.limit target.offset, target.offset.map Nat.cast⟩)

namespace Resource

variable {σ : Type} [FieldSource σ] {c : Config} {updating deleting : Targeting} {op : Operation σ} {store : Recorder}
  {call : Call} {condition : Option Condition} {ordering : List OrderBy} {limit offset : Option Nat} {m : Bindings}
  {ts : List Token}

/-- The text of a call tells which rows it changes. -/
theorem MadeOf.changed {draft : Draft} (h : MadeOf c updating deleting op call draft m ts) :
    changed? call.sql = Sql.changedOf? ts := by
  rw [changed?, h.scan, Option.bind_some]

/-! ## Updates -/

/-- A call for the draft of an update changes the rows of its target. -/
theorem MadeOf.changesTarget_update {row : Row} {target : Target} (htarget : target.offset = none)
    (h : MadeOf c updating deleting op call ((assemble c updating deleting).updater.draft row target) m ts) :
    ∃ us, call.ChangesTarget c target m us := by
  have hunits : Update.units _ (Context.writer ⟨m, c.fields⟩) c.fields = .ok ts := h.units
  obtain ⟨us, criteria, hus, _, hread⟩ := Update.units_changed rfl hunits
  refine ⟨us, Statement.ofScheme_of_bound h.bound, congrArg Call.args h.call_eq, hus, criteria, ?_⟩
  rw [htarget]
  exact h.changed.trans hread

/-- **A direct update changes the rows that it is about.** -/
theorem changesTarget_of_update {changes : σ}
    (h : call ∈ (assemble c .direct deleting).calls (.update changes condition ordering limit) store) :
    ∃ cond m us, condition = some cond ∧ call.ChangesTarget c ⟨cond, ordering, limit, none⟩ m us := by
  obtain ⟨draft, m, ts, hmade⟩ := exists_madeOf h
  obtain ⟨drafts, hdrafts, hdraft⟩ := hmade.drafted
  obtain ⟨cond, row, hcondition, rfl⟩ := drafts_update_direct hdrafts
  obtain rfl := List.mem_singleton.1 hdraft
  obtain ⟨us, hchanges⟩ := hmade.changesTarget_update rfl
  exact ⟨cond, m, us, hcondition, hchanges⟩

/-! ## Removals -/

/-- A call for the draft of a removal changes the rows of its target, and its arguments are scalars of the condition. -/
theorem MadeOf.changesTarget_delete {target : Target}
    (h : MadeOf c updating deleting op call ((assemble c updating deleting).deleter.draft target) m ts) :
    (∃ us, call.ChangesTarget c target m us) ∧ ∀ a ∈ m.args, a ∈ target.condition.scalars := by
  have hunits : Delete.units _ (Context.writer ⟨m, c.fields⟩) c.fields = .ok ts := h.units
  obtain ⟨us, criteria, hus, _, hread⟩ := Delete.units_changed rfl hunits
  refine ⟨⟨us, Statement.ofScheme_of_bound h.bound, congrArg Call.args h.call_eq, hus, criteria, ?_⟩, fun a ha => ?_⟩
  · exact h.changed.trans hread
  · have hscalars : a ∈ [] ++ [target.condition].flatMap Condition.scalars := Statement.mem_scalars_of_args h.bound ha
    rwa [List.nil_append, List.flatMap_singleton] at hscalars

/-- **A direct removal removes the rows that it is about.** -/
theorem changesTarget_of_delete
    (h : call ∈ (assemble c updating .direct).calls (.delete condition ordering limit offset : Operation σ) store) :
    ∃ cond m us, condition = some cond ∧ call.ChangesTarget c ⟨cond, ordering, limit, offset⟩ m us ∧
      ∀ a ∈ m.args, a ∈ cond.scalars := by
  obtain ⟨draft, m, ts, hmade⟩ := exists_madeOf h
  obtain ⟨drafts, hdrafts, hdraft⟩ := hmade.drafted
  obtain ⟨cond, hcondition, rfl⟩ := drafts_delete_direct hdrafts
  obtain rfl := List.mem_singleton.1 hdraft
  obtain ⟨⟨us, hchanges⟩, hargs⟩ := hmade.changesTarget_delete
  exact ⟨cond, m, us, hcondition, hchanges, hargs⟩

end Resource

end BoundSql
