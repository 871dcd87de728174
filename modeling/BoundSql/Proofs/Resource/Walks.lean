import BoundSql.Proofs.Bindings.Coverage
import BoundSql.Proofs.Bindings.Order
import BoundSql.Proofs.Resource.Drafts
import BoundSql.Proofs.Sql.Written

/-!
# The walk that binds a draft

Every draft of a resource is bound by one walk over the scalars of its statement (`Statement.bound`,
`Resource.drafts_walked`): those of its rows come first and are bound as they are, those of its conditions follow, and
the names of fields among them are passed over. So a text that is bound is that of a scalar of the statement, and the
name of a field is bound only if a row has it (`Statement.bound_met`, `Statement.bound_name`).
-/

namespace BoundSql

open Placeholder (Style)

namespace Statement

/-- The scalars of a statement bound: those of its rows as they are, then those of its conditions, but for the names of
fields. -/
def bound (style : Style) (fields : FieldMap) (s : Statement) : Bound :=
  match (Binder.ofStyle style).bindScalars .empty s.rowScalars with
  | ⟨m, none⟩ => ((Binder.ofStyle style).ignoring fields.fields).bindScalars m (s.conditions.flatMap Condition.scalars)
  | ⟨m, some f⟩ => ⟨m, some f⟩

variable {style : Style} {fields : FieldMap} {s : Statement} {m : Bindings}

theorem bound_eq (h : s.bound style fields = ⟨m, none⟩) : ∃ m₁,
    (Binder.ofStyle style).bindScalars .empty s.rowScalars = ⟨m₁, none⟩ ∧
      ((Binder.ofStyle style).ignoring fields.fields).bindScalars m₁ (s.conditions.flatMap Condition.scalars) =
        ⟨m, none⟩ := by
  unfold bound at h
  split at h
  · next m₁ hrows => exact ⟨m₁, hrows, h⟩
  · cases h

/-- A walk makes all tokens by one scheme, also if it is stopped. -/
theorem bound_ofScheme (style : Style) (fields : FieldMap) (s : Statement) :
    (s.bound style fields).bindings.OfScheme style.scheme := by
  have hrows : ((Binder.ofStyle style).bindScalars .empty s.rowScalars).bindings.OfScheme style.scheme :=
    (Bindings.OfScheme.empty style.scheme).grows ((Binder.ofStyle style).bindScalars_grows .empty s.rowScalars)
  unfold bound
  split
  · next m h =>
    rw [h] at hrows
    exact hrows.grows (((Binder.ofStyle style).ignoring fields.fields).bindScalars_grows m _)
  · next m f h =>
    rw [h] at hrows
    exact hrows

theorem ofScheme_of_bound (h : s.bound style fields = ⟨m, none⟩) : m.OfScheme style.scheme := by
  have hm := bound_ofScheme style fields s
  rw [h] at hm
  exact hm

/-- What is bound was met. -/
theorem bound_met (h : s.bound style fields = ⟨m, none⟩) {canonical : String} (hkey : canonical ∈ m.keys) :
    ∃ v ∈ s.scalars, v.canonical = .ok canonical := by
  obtain ⟨m₁, hrows, hconditions⟩ := bound_eq h
  rcases Binder.bindScalars_adds hconditions hkey with hkey | ⟨_, v, hv, hcanonical⟩
  · rcases Binder.bindScalars_adds hrows hkey with hkey | ⟨_, v, hv, hcanonical⟩
    · cases hkey
    · exact ⟨v, List.mem_append_left _ hv, hcanonical⟩
  · exact ⟨v, List.mem_append_right _ hv, hcanonical⟩

/-- What is bound is scalars of the statement. -/
theorem mem_scalars_of_args (h : s.bound style fields = ⟨m, none⟩) {a : Value} (ha : a ∈ m.args) : a ∈ s.scalars := by
  obtain ⟨m₁, hrows, hconditions⟩ := bound_eq h
  rcases Binder.bindScalars_args hconditions ha with ha | ha
  · rcases Binder.bindScalars_args hrows ha with ha | ha
    · cases ha
    · exact List.mem_append_left _ ha
  · exact List.mem_append_right _ ha

/-- The name of a field is bound for a row only. -/
theorem bound_name (h : s.bound style fields = ⟨m, none⟩) {name : String} (hkey : name ∈ m.keys)
    (hname : name ∈ fields.fields) : ∃ v ∈ s.rowScalars, v.canonical = .ok name := by
  obtain ⟨m₁, hrows, hconditions⟩ := bound_eq h
  rcases Binder.bindScalars_adds hconditions hkey with hkey | ⟨hnew, _⟩
  · rcases Binder.bindScalars_adds hrows hkey with hkey | ⟨_, v, hv, hcanonical⟩
    · cases hkey
    · exact ⟨v, hv, hcanonical⟩
  · exact absurd (List.mem_append_right _ hname) hnew

end Statement

/-! ## Drafts -/

/-- A draft whose values are bound by a walk over its statement. -/
def Draft.Walked (style : Style) (fields : FieldMap) (d : Draft) : Prop :=
  d.fields = fields ∧ d.values = d.statement.bound style fields

variable {style : Style} {fields : FieldMap}

theorem Binder.bindConditions_singleton (b : Binder) (m : Bindings) (c : Condition) :
    b.bindConditions m [c] = b.bindCondition m c := by
  rw [bindConditions_eq, bindCondition_eq, List.flatMap_singleton]

/-- A walk over conditions with nothing in front of them. -/
theorem Statement.bound_of_no_rows {s : Statement} (h : s.rowScalars = []) : s.bound style fields =
    ((Binder.ofStyle style).ignoring fields.fields).bindConditions .empty s.conditions := by
  rw [Binder.bindConditions_eq, bound, h]
  rfl

theorem Selector.draft_walked {s : Selector} (hs : s.binder = (Binder.ofStyle style).ignoring s.fields.fields)
    (condition : Option Condition) (ordering : List OrderBy) (limit offset : Option Nat) :
    (s.draft condition ordering limit offset).Walked style s.fields := by
  refine ⟨rfl, Eq.trans ?_ (Statement.bound_of_no_rows rfl).symm⟩
  rw [← hs]
  rfl

theorem Inserter.draft_walked {i : Inserter} (hi : i.binder = Binder.ofStyle style) (rows : List Row) :
    (i.draft rows).Walked style i.fields := by
  refine ⟨rfl, ?_⟩
  unfold Statement.bound Statement.rowScalars draft
  dsimp only
  rw [Binder.bindValues_eq, hi]
  -- there are no conditions, so nothing is added to what the rows have left
  rcases (Binder.ofStyle style).bindScalars .empty ((rows.flatMap Dict.values).flatMap Binder.scalarsOf) with
    ⟨m, _ | f⟩
  · rfl
  · rfl

theorem Updater.draft_walked {u : Updater} (hv : u.valueBinder = Binder.ofStyle style)
    (hc : u.conditionBinder = (Binder.ofStyle style).ignoring u.fields.fields) (changes : Row) (target : Target) :
    (u.draft changes target).Walked style u.fields := by
  refine ⟨rfl, ?_⟩
  unfold Statement.bound Statement.rowScalars Statement.conditions draft
  dsimp only
  rw [Binder.bindValues_eq, hv, hc]
  rcases (Binder.ofStyle style).bindScalars .empty (changes.values.flatMap Binder.scalarsOf) with ⟨m, _ | f⟩
  · exact (Binder.bindConditions_singleton _ m target.condition).symm.trans (Binder.bindConditions_eq _ m _)
  · rfl

theorem Deleter.draft_walked {d : Deleter} (hd : d.binder = (Binder.ofStyle style).ignoring d.fields.fields)
    (target : Target) : (d.draft target).Walked style d.fields := by
  refine ⟨rfl, Eq.trans ?_ (Statement.bound_of_no_rows rfl).symm⟩
  rw [← hd]
  exact (Binder.bindConditions_singleton _ _ _).symm

variable {σ : Type} [FieldSource σ]

namespace Resource

/-- **Every draft of a resource is bound by a walk over its statement.** -/
theorem drafts_walked (c : Config) (updating deleting : Targeting) {op : Operation σ} {drafts : List Draft}
    (h : (assemble c updating deleting).drafts op = .ok drafts) :
    ∀ d ∈ drafts, d.Walked c.placeholders c.fields :=
  drafts_all _ (Selector.draft_walked rfl) (fun _ => Inserter.draft_walked rfl) (Updater.draft_walked rfl rfl)
    (Deleter.draft_walked rfl) h

/-- Only insertions make statements that insert. -/
theorem drafts_ne_insert (r : Resource) {op : Operation σ} (hop : ∀ records, op ≠ .insert records)
    {drafts : List Draft} (h : r.drafts op = .ok drafts) : ∀ d ∈ drafts, ∀ i, d.statement ≠ .insert i :=
  r.drafts_all (fun _ _ _ _ => nofun) (fun ⟨records, hinsert⟩ => absurd hinsert (hop records)) (fun _ _ => nofun)
    (fun _ => nofun) h

end Resource

end BoundSql
