import BoundSql.Proofs.Sql.Readable
import BoundSql.Proofs.Sql.Template

/-!
# Statements of any kind

The four kinds of statements as one type, and what holds of all of them: a statement is its template, filled
(`Statement.fills`), matching statements are written alike by corresponding writers (`Statement.units_related`), and
the tokens that a statement is written in are those of its styles (`Statement.units_styled`).
-/

namespace BoundSql

open Sql (Writer Token Context template)

/-- One of the four kinds of statements. -/
inductive Statement where
  | select (s : Select)
  | insert (s : Insert)
  | update (s : Update)
  | delete (s : Delete)

namespace Statement

variable {τ τ' : Type}

/-- Units of a statement. -/
def units (w : Writer τ) (fields : FieldMap) : Statement → Except Failure (List τ)
  | select s => s.units w fields
  | insert s => s.units w
  | update s => s.units w fields
  | delete s => s.units w fields

theorem fills (w : Writer τ) (fields : FieldMap) :
    ∀ s : Statement, w.Fills (s.units w fields) (s.units template fields)
  | select s => s.fills w fields
  | insert s => s.fills w
  | update s => s.fills w fields
  | delete s => s.fills w fields

/-- Statements that differ in their values only. -/
def Matches (R : Value → Value → Prop) : Statement → Statement → Prop
  | select s, select s' => s.Matches R s'
  | insert s, insert s' => s.Matches R s'
  | update s, update s' => s.Matches R s'
  | delete s, delete s' => s.Matches R s'
  | _, _ => False

theorem matches_self : ∀ s : Statement, s.Matches Eq s
  | select s => s.matches_self
  | insert s => s.matches_self
  | update s => s.matches_self
  | delete s => s.matches_self

/-- **Matching statements are written alike by corresponding writers.** -/
theorem units_related {w : Writer τ} {w' : Writer τ'} {R : Value → Value → Prop} {E : Failure → Failure → Prop}
    {S : τ → τ' → Prop} (hw : w.Corresponds w' R E S)
    (hcell : ∀ v v', R v v' → Related E (List.Forall₂ S) (w.cell v) (w'.cell v')) (fields : FieldMap) :
    ∀ s s' : Statement, s.Matches R s' → Related E (List.Forall₂ S) (s.units w fields) (s'.units w' fields)
  | select _, select _, h => Select.units_related hw fields h
  | insert _, insert _, h => Insert.units_related hw hcell h
  | update _, update _, h => Update.units_related hw fields hcell h
  | delete _, delete _, h => Delete.units_related hw fields h

/-- What holds of every fixed token and every value holds of every unit of a statement. -/
theorem units_all {w : Writer τ} {P : τ → Prop} (hw : w.Keeps P) (hcell : ∀ v, Sql.All P (w.cell v))
    (fields : FieldMap) (s : Statement) : Sql.All P (s.units w fields) :=
  Sql.all_iff_related.2 (s.units_related hw.corresponds (fun v _ h => h ▸ Sql.all_iff_related.1 (hcell v)) fields s
    s.matches_self)

/-- **Every token of a statement is one of a style**, if the values are bound to tokens of styles. -/
theorem units_styled {values : Bindings} (hvalues : values.Styled) {fields : FieldMap} {s : Statement} {ts : List Token}
    (hts : s.units (Context.writer ⟨values, fields⟩) fields = .ok ts) : ∀ t ∈ ts, t.Styled :=
  s.units_all (Context.writer_keeps_styled hvalues fields) (Sql.boundTokens_styled hvalues) fields ts hts

end Statement

end BoundSql
