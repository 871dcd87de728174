import BoundSql.Proofs.Sql.Matching
import BoundSql.Proofs.Sql.Plain

/-!
# The same statement by two writers

How a statement is written depends on its values only through the writer. If two writers correspond, that is, if they
write fixed tokens as related units and related scalars as related lists of units or not at all, then matching
conditions are written unit by unit alike, or neither is (`conditionUnits_related`). If they correspond on the cells of
rows too, this holds of statements (`Select.units_related` and its companions).

With one writer and one condition it says what all units have in common (`conditionUnits_all`).
-/

namespace BoundSql

open Sql (Token Writer)

variable {τ τ' : Type}

namespace Sql

/-- Writers that write fixed tokens and related scalars as related units, or fail alike. -/
structure Writer.Corresponds (w : Writer τ) (w' : Writer τ') (R : Value → Value → Prop)
    (E : Failure → Failure → Prop) (S : τ → τ' → Prop) : Prop where
  shaped : Value.Shaped R
  failure : ∀ f, E f f
  token : ∀ t, t.isPlaceholder = false → S (w.token t) (w'.token t)
  scalar : ∀ v v', R v v' → Related E (List.Forall₂ S) (w.scalar v) (w'.scalar v')

section

variable {w : Writer τ} {w' : Writer τ'} {R : Value → Value → Prop} {E : Failure → Failure → Prop}
  {S : τ → τ' → Prop} {us vs : List τ} {us' vs' : List τ'}

theorem forall₂_append (h : List.Forall₂ S us us') (h' : List.Forall₂ S vs vs') :
    List.Forall₂ S (us ++ vs) (us' ++ vs') := List.rel_append h h'

theorem forall₂_flatMap_cons {u : τ} {u' : τ'} (hu : S u u') {parts : List (List τ)} {parts' : List (List τ')}
    (h : List.Forall₂ (List.Forall₂ S) parts parts') :
    List.Forall₂ S (parts.flatMap (u :: ·)) (parts'.flatMap (u' :: ·)) := by
  induction h with
  | nil => exact .nil
  | cons hpart _ ih =>
    rw [List.flatMap_cons, List.flatMap_cons]
    exact .cons hu (forall₂_append hpart ih)

theorem forall₂_separated {u : τ} {u' : τ'} (hu : S u u') {parts : List (List τ)} {parts' : List (List τ')}
    (h : List.Forall₂ (List.Forall₂ S) parts parts') :
    List.Forall₂ S (separated u parts) (separated u' parts') := by
  cases h with
  | nil => exact .nil
  | cons hpart hparts => exact forall₂_append hpart (forall₂_flatMap_cons hu hparts)

namespace Writer.Corresponds

variable (hw : w.Corresponds w' R E S)

include hw

theorem fixed {ts : List Token} (h : Plain ts) : List.Forall₂ S (w.fixed ts) (w'.fixed ts) := by
  induction ts with
  | nil => exact .nil
  | cons t ts ih =>
    exact .cons (hw.token t (h t List.mem_cons_self)) (ih fun t' ht' => h t' (List.mem_cons_of_mem _ ht'))

theorem parenthesized (h : List.Forall₂ S us us') : List.Forall₂ S (w.parenthesized us) (w'.parenthesized us') :=
  .cons (hw.token _ rfl) (forall₂_append h (.cons (hw.token _ rfl) .nil))

theorem listed {parts : List (List τ)} {parts' : List (List τ')} (h : List.Forall₂ (List.Forall₂ S) parts parts') :
    List.Forall₂ S (w.listed parts) (w'.listed parts') :=
  forall₂_separated (hw.token _ rfl) h

theorem behind {ts : List Token} (hts : Plain ts) (h : List.Forall₂ S us us') :
    List.Forall₂ S (us ++ w.fixed ts) (us' ++ w'.fixed ts) :=
  forall₂_append h (hw.fixed hts)

theorem before {ts : List Token} (hts : Plain ts) (h : List.Forall₂ S us us') :
    List.Forall₂ S (w.fixed ts ++ us) (w'.fixed ts ++ us') :=
  forall₂_append (hw.fixed hts) h

theorem literal {v v' : Value} (h : R v v') : Related E (List.Forall₂ S) (w.literal v) (w'.literal v') := by
  have hlist := hw.shaped.list h
  cases v with
  | list items =>
    cases v' with
    | list items' =>
      exact (Related.mapM ((hw.shaped.items h).imp hw.scalar)).bind fun _ _ hparts =>
        .ok (hw.parenthesized (hw.listed hparts))
    | _ => cases hlist
  | _ =>
    cases v' with
    | list items' => cases hlist
    | _ => exact hw.scalar _ _ h

end Writer.Corresponds

end

end Sql

/-! ## Conditions -/

namespace Condition

open Sql

variable {w : Writer τ} {w' : Writer τ'} {R : Value → Value → Prop} {E : Failure → Failure → Prop}
  {S : τ → τ' → Prop}

/-- Operands whose terms match and whose units are related. -/
def Operand.Alike (R : Value → Value → Prop) (E : Failure → Failure → Prop) (S : τ → τ' → Prop) (o : Operand τ)
    (o' : Operand τ') : Prop :=
  o.1.Matches R o'.1 ∧ Related E (List.Forall₂ S) o.2 o'.2

variable {os : List (Operand τ)} {os' : List (Operand τ')}

theorem Operand.Alike.isNull (hR : Value.Shaped R) {o : Operand τ} {o' : Operand τ'} (h : o.Alike R E S o') :
    o.isNull = o'.isNull := by
  obtain ⟨t, _⟩ := o
  obtain ⟨t', _⟩ := o'
  obtain ⟨h, _⟩ := h
  cases t <;> cases t' <;> first | exact h.elim | exact hR.null h | rfl

theorem Operand.Alike.isEmptyList (hR : Value.Shaped R) {o : Operand τ} {o' : Operand τ'} (h : o.Alike R E S o') :
    o.isEmptyList = o'.isEmptyList := by
  obtain ⟨t, _⟩ := o
  obtain ⟨t', _⟩ := o'
  obtain ⟨h, _⟩ := h
  cases t <;> cases t' <;> first | exact h.elim | exact hR.isEmptyList h | rfl

variable (hw : w.Corresponds w' R E S) (h : List.Forall₂ (Operand.Alike R E S) os os')

include hw h

theorem junction_related (word : Keyword) (whenEmpty : Bool) :
    Related E (List.Forall₂ S) (junction w word whenEmpty os) (junction w' word whenEmpty os') := by
  cases h with
  | nil =>
    refine .ok (hw.fixed ?_)
    cases whenEmpty <;> simp [constant, Plain, Token.isPlaceholder]
  | cons ho hos =>
    exact (Related.mapM (.cons ho.2 (hos.imp fun _ _ h => h.2))).bind fun _ _ hparts =>
      .ok (forall₂_separated (hw.token _ rfl) hparts)

theorem binary_related (operator : Operator) (between : List Token) (hbetween : Plain between) :
    Related E (List.Forall₂ S) (binary w operator between os) (binary w' operator between os') := by
  have hlength := h.length_eq
  unfold binary
  rcases h with _ | ⟨hl, _ | ⟨hr, _ | _⟩⟩
  · exact .error (hw.failure _)
  · exact .error (hw.failure _)
  · exact hl.2.bind fun _ _ hl => hr.2.bind fun _ _ hr => .ok (forall₂_append (hw.behind hbetween hl) hr)
  · rw [hlength]
    exact .error (hw.failure _)

theorem equality_related (operator : Operator) (sign : Sign) {nullTest : List Token} (htest : Plain nullTest) :
    Related E (List.Forall₂ S) (equality w operator sign nullTest os) (equality w' operator sign nullTest os') := by
  have hlength := h.length_eq
  have hbinary := binary_related hw h operator [.sign sign] (plain_singleton rfl)
  unfold equality
  rcases h with _ | ⟨hl, _ | ⟨hr, _ | _⟩⟩
  · exact .error (hw.failure _)
  · exact .error (hw.failure _)
  · dsimp only
    rw [hl.isNull hw.shaped, hr.isNull hw.shaped]
    split
    · exact hl.2.map fun _ _ => hw.behind htest
    · split
      · exact hr.2.map fun _ _ => hw.behind htest
      · exact hbinary
  · rw [hlength]
    exact .error (hw.failure _)

theorem membership_related : Related E (List.Forall₂ S) (membership w os) (membership w' os') := by
  have hbinary := binary_related hw h .in [.keyword .in] (plain_singleton rfl)
  unfold membership
  rcases h with _ | ⟨hl, _ | ⟨hr, _ | _⟩⟩
  · exact hbinary
  · exact hbinary
  · dsimp only
    rw [hr.isEmptyList hw.shaped]
    split
    · exact .ok (hw.fixed (by simp [constant, Plain, Token.isPlaceholder]))
    · exact hbinary
  · exact hbinary

theorem body_related (operator : Operator) :
    Related E (List.Forall₂ S) (body w operator os) (body w' operator os') := by
  have hlength := h.length_eq
  have hnull : Plain [.keyword .is, .keyword .null] := by simp [Plain, Token.isPlaceholder]
  cases operator with
  | and => exact junction_related hw h _ _
  | or => exact junction_related hw h _ _
  | equalTo => exact equality_related hw h _ _ hnull
  | notEqualTo => exact equality_related hw h _ _ (by simp [Plain, Token.isPlaceholder])
  | lessThan => exact binary_related hw h _ _ (plain_singleton rfl)
  | lessThanOrEqualTo => exact binary_related hw h _ _ (plain_singleton rfl)
  | greaterThan => exact binary_related hw h _ _ (plain_singleton rfl)
  | greaterThanOrEqualTo => exact binary_related hw h _ _ (plain_singleton rfl)
  | like => exact binary_related hw h _ _ (plain_singleton rfl)
  | «in» => exact membership_related hw h
  | between =>
    simp only [body]
    rcases h with _ | ⟨hs, _ | ⟨hl, _ | ⟨hh, _ | _⟩⟩⟩
    · exact .error (hw.failure _)
    · exact .error (hw.failure _)
    · exact .error (hw.failure _)
    · exact hs.2.bind fun _ _ hs => hl.2.bind fun _ _ hl => hh.2.bind fun _ _ hh =>
        .ok (forall₂_append (forall₂_append hs (.cons (hw.token _ rfl) hl)) (.cons (hw.token _ rfl) hh))
    · rw [hlength]
      exact .error (hw.failure _)
  | isNull =>
    simp only [body]
    rcases h with _ | ⟨hs, _ | _⟩
    · exact .error (hw.failure _)
    · exact hs.2.map fun _ _ => hw.behind hnull
    · rw [hlength]
      exact .error (hw.failure _)

end Condition

namespace Sql

variable {w : Writer τ} {w' : Writer τ'} {R : Value → Value → Prop} {E : Failure → Failure → Prop}
  {S : τ → τ' → Prop}

mutual

theorem termUnits_related (hw : w.Corresponds w' R E S) (fields : FieldMap) : ∀ t t' : Term,
    t.Matches R t' → Related E (List.Forall₂ S) (termUnits w fields t) (termUnits w' fields t')
  | .literal _, .literal _, h => hw.literal h
  | .field f, .field _, h => h ▸ .ok (hw.fixed (fieldTokens_plain fields f))
  | .condition c, .condition c', h => (conditionUnits_related hw fields c c' h).map fun _ _ => hw.parenthesized

/-- **Matching conditions are written alike by corresponding writers.** -/
theorem conditionUnits_related (hw : w.Corresponds w' R E S) (fields : FieldMap) : ∀ c c' : Condition,
    c.Matches R c' → Related E (List.Forall₂ S) (conditionUnits w fields c) (conditionUnits w' fields c')
  | ⟨operator, terms, negated⟩, ⟨_, terms', _⟩, ⟨ho, hn, h⟩ => by
    subst ho hn
    refine (Condition.body_related hw (operands_related hw fields terms terms' h) operator).bind ?_
    intro us us' hus
    cases negated with
    | false => exact .ok hus
    | true => exact .ok (.cons (hw.token _ rfl) (hw.parenthesized hus))

theorem operands_related (hw : w.Corresponds w' R E S) (fields : FieldMap) : ∀ ts ts' : List Term,
    Term.AllMatch R ts ts' →
    List.Forall₂ (Condition.Operand.Alike R E S) (operands w fields ts) (operands w' fields ts')
  | [], [], _ => .nil
  | t :: ts, t' :: ts', h =>
    .cons ⟨h.1, termUnits_related hw fields t t' h.1⟩ (operands_related hw fields ts ts' h.2)

end

/-! ## Statements -/

variable (hw : w.Corresponds w' R E S) (fields : FieldMap)

include hw

variable {condition condition' : Option Condition}

theorem whereUnits_related (h : Option.Rel (Condition.Matches R) condition condition') :
    Related E (List.Forall₂ S) (whereUnits w fields condition) (whereUnits w' fields condition') := by
  cases h with
  | none => exact .ok .nil
  | some h => exact (conditionUnits_related hw fields _ _ h).map fun _ _ hus => .cons (hw.token _ rfl) hus

theorem joinUnits_related {j j' : Join} (h : j.Matches R j') :
    Related E (List.Forall₂ S) (joinUnits w fields j) (joinUnits w' fields j') := by
  obtain ⟨hkind, htable, hcondition⟩ := h
  unfold joinUnits
  rw [← hkind, ← htable]
  refine (conditionUnits_related hw fields _ _ hcondition).map fun _ _ => hw.before ?_
  refine (Plain.append ?_ (tableTokens_plain j.table)).append (plain_singleton rfl)
  cases j.kind <;> simp [joinKeywords, Plain, Token.isPlaceholder]

theorem scopeUnits_related (table : String) (h : Option.Rel (Condition.Matches R) condition condition')
    (ordering : List OrderBy) (limit offset : Option Nat) :
    Related E (List.Forall₂ S) (scopeUnits w fields table condition ordering limit offset)
      (scopeUnits w' fields table condition' ordering limit offset) := by
  refine (whereUnits_related hw fields h).bind ?_
  intro rows rows' hrows
  split
  · exact .ok hrows
  · cases horder : orderTokens fields ordering with
    | error f => exact .error (hw.failure f)
    | ok order =>
      have hleft : Plain ([.keyword .select, .keyword .rowid, .keyword .from] ++ nameTokens table) :=
        Plain.append (by simp [Plain, Token.isPlaceholder]) (nameTokens_plain table)
      have hright := (orderTokens_plain horder).append (limitTokens_plain limit offset)
      exact .ok (hw.before (by simp [Plain, Token.isPlaceholder])
        (hw.parenthesized (hw.behind hright (hw.before hleft hrows))))

end Sql

open Sql

section

variable {w : Writer τ} {w' : Writer τ'} {R : Value → Value → Prop} {E : Failure → Failure → Prop}
  {S : τ → τ' → Prop} (hw : w.Corresponds w' R E S) (fields : FieldMap)

include hw

theorem Select.units_related {s s' : Select} (h : s.Matches R s') :
    Related E (List.Forall₂ S) (s.units w fields) (s'.units w' fields) := by
  have hhead : s.head = s'.head := by rw [Select.head, Select.head, h.fields, h.tables]
  unfold Select.units
  rw [← hhead, ← h.tables, ← h.ordering, ← h.limit, ← h.offset]
  split
  · exact .error (hw.failure _)
  · refine (Related.mapM (h.joins.imp fun _ _ => joinUnits_related hw fields)).bind fun _ _ hjoins =>
      (whereUnits_related hw fields h.condition).bind fun _ _ hrows => ?_
    cases horder : orderTokens fields s.ordering with
    | error f => exact .error (hw.failure f)
    | ok order =>
      exact .ok (hw.behind ((orderTokens_plain horder).append (limitTokens_plain _ _))
        (forall₂_append (hw.before (Select.head_plain s) (List.rel_flatten hjoins)) hrows))

theorem Delete.units_related {s s' : Delete} (h : s.Matches R s') :
    Related E (List.Forall₂ S) (s.units w fields) (s'.units w' fields) := by
  unfold Delete.units
  rw [← h.table, ← h.ordering, ← h.limit, ← h.offset]
  exact (scopeUnits_related hw fields s.table h.condition s.ordering s.limit s.offset).bind fun _ _ hscope =>
    .ok (hw.before (Plain.append (by simp [Plain, Token.isPlaceholder]) (nameTokens_plain s.table)) hscope)

variable (hcell : ∀ v v', R v v' → Related E (List.Forall₂ S) (w.cell v) (w'.cell v'))

include hcell

theorem Insert.rowUnits_related (columns : List String) {row row' : Row} (h : row.Matches R row') :
    Related E (List.Forall₂ S) (Insert.rowUnits w columns row) (Insert.rowUnits w' columns row') := by
  refine (Related.mapM (T := List.Forall₂ S) (List.forall₂_same.2 fun column _ => ?_)).bind fun _ _ hcells =>
    .ok (hw.parenthesized (hw.listed hcells))
  have hget := h.get? column
  revert hget
  cases row.get? column <;> cases row'.get? column <;> rintro (_ | hv)
  · exact .ok (hw.fixed (plain_singleton rfl))
  · exact hcell _ _ ‹_›

theorem Insert.filled_related {s s' : Insert} (h : s.Matches R s') {head : List Token} (hhead : Plain head) :
    Related E (List.Forall₂ S) (Insert.units.filled s w head) (Insert.units.filled s' w' head) := by
  unfold Insert.units.filled
  rw [← h.columns]
  refine (Related.mapM (h.rows.imp fun _ _ => Insert.rowUnits_related hw hcell s.columns)).bind fun _ _ hrows =>
    .ok (hw.before ((hhead.append ?_).append (plain_singleton rfl)) (hw.listed hrows))
  have hcolumns : Plain (separated .comma (s.columns.map nameTokens)) := .separated rfl fun part hpart => by
    obtain ⟨name, _, rfl⟩ := List.mem_map.1 hpart
    exact nameTokens_plain name
  exact ((plain_singleton rfl).append hcolumns).append (plain_singleton rfl)

theorem Insert.units_related {s s' : Insert} (h : s.Matches R s') :
    Related E (List.Forall₂ S) (s.units w) (s'.units w') := by
  have hhead : Plain ([.keyword .insert, .keyword .into] ++ nameTokens s.table) :=
    Plain.append (by simp [Plain, Token.isPlaceholder]) (nameTokens_plain s.table)
  have hfilled := Insert.filled_related hw hcell h hhead
  have hrows := h.rows
  unfold Insert.units
  rw [← h.table, ← h.columns]
  generalize s.rows = rows, s'.rows = rows' at hrows
  rcases hrows with _ | ⟨_, _ | ⟨_, _⟩⟩
  · exact .error (hw.failure _)
  · dsimp only
    split
    · exact .ok (hw.fixed (hhead.append (by simp [Plain, Token.isPlaceholder])))
    · exact hfilled
  · dsimp only
    split
    · exact .error (hw.failure _)
    · exact hfilled

theorem Update.units_related {s s' : Update} (h : s.Matches R s') :
    Related E (List.Forall₂ S) (s.units w fields) (s'.units w' fields) := by
  have hempty := h.changes.isEmpty
  unfold Update.units
  rw [← hempty, ← h.table, ← h.ordering, ← h.limit]
  split
  · exact .error (hw.failure _)
  · refine (Related.mapM (T := List.Forall₂ S) (h.changes.imp fun change change' hchange => ?_)).bind
      fun _ _ hassignments => (scopeUnits_related hw fields s.table h.condition s.ordering s.limit none).bind
        fun _ _ hscope => .ok (forall₂_append (hw.before ?_ (hw.listed hassignments)) hscope)
    · unfold Update.assignmentUnits
      rw [← hchange.1]
      exact (hcell _ _ hchange.2).map fun _ _ =>
        hw.before ((nameTokens_plain change.1).append (plain_singleton rfl))
    · exact ((plain_singleton rfl).append (nameTokens_plain s.table)).append (plain_singleton rfl)

end

/-! ## One writer -/

namespace Sql

/-- Every unit has a property, if there are any. -/
def All (P : τ → Prop) (written : Except Failure (List τ)) : Prop := ∀ us, written = .ok us → ∀ u ∈ us, P u

variable {P : τ → Prop}

theorem All.ok {us : List τ} (h : ∀ u ∈ us, P u) : All P (.ok us) := fun _ h' => Except.ok.inj h' ▸ h

theorem all_iff_related {written : Except Failure (List τ)} :
    All P written ↔ Related Eq (List.Forall₂ fun u u' => u = u' ∧ P u) written written := by
  cases written with
  | error f => exact ⟨fun _ => .error rfl, fun _ => nofun⟩
  | ok us =>
    constructor
    · exact fun h => .ok (List.forall₂_same.2 fun u hu => ⟨rfl, h us rfl u hu⟩)
    · rintro (h | _)
      exact .ok fun u hu => (List.forall₂_same.1 h u hu).2

/-- A writer whose units have a property, those of placeholders and of cells apart. -/
structure Writer.Keeps (w : Writer τ) (P : τ → Prop) : Prop where
  token : ∀ t, t.isPlaceholder = false → P (w.token t)
  scalar : ∀ v, All P (w.scalar v)

theorem Writer.Keeps.corresponds {w : Writer τ} (hw : w.Keeps P) :
    w.Corresponds w Eq Eq fun u u' => u = u' ∧ P u where
  shaped := .eq
  failure _ := rfl
  token t ht := ⟨rfl, hw.token t ht⟩
  scalar v _ h := h ▸ all_iff_related.1 (hw.scalar v)

/-- **What holds of every fixed token and every scalar holds of every unit of a condition.** -/
theorem conditionUnits_all {w : Writer τ} (hw : w.Keeps P) (fields : FieldMap) (c : Condition) :
    All P (conditionUnits w fields c) :=
  all_iff_related.2 (conditionUnits_related hw.corresponds fields c c c.matches_self)

end Sql

end BoundSql
