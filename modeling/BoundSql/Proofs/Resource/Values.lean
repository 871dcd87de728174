import BoundSql.Proofs.Resource.Walks

/-!
# Every value finds its argument

The binder walks over the values of a statement before the renderer does, each in its own way. They agree: in the text
of every call, what stands in the place of a value is the column that it names, the word for a missing value, or a
token whose position is that of an argument with the same canonical text (`Resource.calls_carry_values`).

The bindings of every draft are made by one scheme (`Resource.drafts_ofStyle`), and a writer over such bindings writes
every piece of a template as it should be (`Piece.writtenAs`).
-/

namespace BoundSql

open Sql (Token Writer Piece Context template nameTokens)
open Placeholder (StandsFor Style)

/-! ## How pieces are written -/

namespace Sql

/-- Tokens of a value that is bound: the word for a missing value, or a token that leads to an argument. -/
def BoundAs (args : List Value) (v : Value) (ts : List Token) : Prop :=
  if v.isNull then ts = [.keyword .null] else ∃ token, ts = [.placeholder token] ∧ StandsFor args v token

/-- Tokens of a piece: fixed tokens are no placeholders, the cells of a row are bound, and so are the scalars of a
condition, but for the texts that name a field. -/
def Piece.WrittenAs (fields : FieldMap) (args : List Value) : Piece → List Token → Prop
  | .token t, ts => ts = [t] ∧ t.isPlaceholder = false
  | .cell v, ts => BoundAs args v ts
  | .scalar v, ts =>
    match fields.named? v with
    | some column => ts = nameTokens column
    | none => BoundAs args v ts

variable {style : Style} {values : Bindings} {fields : FieldMap} {v : Value} {ts : List Token}

theorem boundAs_of_boundTokens (hvalues : values.OfScheme style.scheme) (h : boundTokens values v = .ok ts) :
    BoundAs values.args v ts := by
  unfold boundTokens at h
  unfold BoundAs
  split at h
  · next hnull =>
    rw [if_pos hnull]
    exact (Except.ok.inj h).symm
  · next hnull =>
    rw [if_neg hnull]
    split at h
    · next token htoken => exact ⟨token, (Except.ok.inj h).symm, hvalues.standsFor htoken⟩
    · cases h

theorem Piece.writtenAs (hvalues : values.OfScheme style.scheme) {p : Piece} (hp : p.Plain)
    (h : (Context.writer ⟨values, fields⟩).write p = .ok ts) : p.WrittenAs fields values.args ts := by
  cases p with
  | token t => exact ⟨(Except.ok.inj h).symm, hp⟩
  | cell v => exact boundAs_of_boundTokens hvalues h
  | scalar v =>
    have h' : scalarTokens ⟨values, fields⟩ v = .ok ts := h
    dsimp only [scalarTokens] at h'
    dsimp only [WrittenAs]
    cases hnamed : fields.named? v with
    | some column =>
      rw [hnamed] at h'
      exact (Except.ok.inj h').symm
    | none =>
      rw [hnamed] at h'
      exact boundAs_of_boundTokens hvalues h'

end Sql

/-! ## The cells of an update -/

namespace Sql

/-- The values of the cells among some pieces. -/
def cells (ps : List Piece) : List Value := ps.filterMap Piece.cell?

theorem cells_append (ps qs : List Piece) : cells (ps ++ qs) = cells ps ++ cells qs := List.filterMap_append

theorem cells_fixed (ts : List Token) : cells (template.fixed ts) = [] := by
  rw [cells, List.filterMap_eq_flatMap_toList]
  exact held_fixed (fun _ => rfl) ts

theorem cells_listed (parts : List (List Piece)) : cells (template.listed parts) = parts.flatMap cells := by
  unfold cells
  simp only [List.filterMap_eq_flatMap_toList]
  exact held_separated (fun _ => rfl) .comma parts

theorem cells_scope {fields : FieldMap} {table : String} {condition : Option Condition} {ordering : List OrderBy}
    {limit offset : Option Nat} {ps : List Piece}
    (h : scopeUnits template fields table condition ordering limit offset = .ok ps) : cells ps = [] := by
  have hrelated := scopeUnits_related template_keeps_scalars.corresponds fields table
    (optionRel_self Condition.matches_self condition) ordering limit offset
  exact List.filterMap_eq_nil_iff.2 (all_iff_related.2 hrelated ps h)

end Sql

open Sql (cells)

theorem Update.cells_assignments {changes : List (String × Value)} {parts : List (List Piece)}
    (h : List.Forall₂ (fun change ps => assignmentUnits template change = .ok ps) changes parts) :
    parts.flatMap cells = changes.map Prod.snd := by
  induction h with
  | nil => rfl
  | cons hchange _ ih =>
    cases Except.ok.inj hchange
    rw [List.flatMap_cons, ih, Sql.cells_append, Sql.cells_fixed]
    rfl

/-- The cells of an update are its new values. -/
theorem Update.cells_units {s : Update} {fields : FieldMap} {ps : List Piece} (h : s.units template fields = .ok ps) :
    cells ps = s.changes.values := by
  unfold Update.units at h
  split at h
  · cases h
  · obtain ⟨assignments, hassignments, h⟩ := bind_eq_ok.1 h
    obtain ⟨scope, hscope, h⟩ := bind_eq_ok.1 h
    cases pure_eq_ok.1 h
    rw [Sql.cells_append, Sql.cells_append, Sql.cells_fixed, Sql.cells_listed, Sql.cells_scope hscope,
      List.append_nil, List.nil_append, Dict.values]
    exact Update.cells_assignments (mapM_eq_ok.1 hassignments)

/-! ## The bindings of a draft -/

/-- A draft whose values are bound with the tokens of a style. -/
def Draft.OfStyle (style : Style) (fields : FieldMap) (d : Draft) : Prop :=
  d.fields = fields ∧ d.values.bindings.OfScheme style.scheme

variable {style : Style} {fields : FieldMap}

/-- **The text of a draft is its template with every piece written as it should be.** -/
theorem Draft.OfStyle.request_written {d : Draft} (hd : d.OfStyle style fields) {request : Recorder.Request}
    (h : d.request = .ok request) : ∃ pieces parts, d.statement.units template fields = .ok pieces ∧
      List.Forall₂ (Piece.WrittenAs fields request.args) pieces parts ∧ request.sql = Sql.render parts.flatten := by
  obtain ⟨rfl, hvalues⟩ := hd
  obtain ⟨values, ts, hbound, hts, rfl⟩ := Draft.request_eq_ok h
  rw [hbound] at hvalues
  obtain ⟨pieces, hpieces, parts, hparts, rfl⟩ := (d.statement.fills _ d.fields ts).1 hts
  have hplain := d.statement.pieces_plain d.fields pieces hpieces
  refine ⟨pieces, parts, hpieces, ?_, rfl⟩
  clear hpieces hts h
  induction hparts with
  | nil => exact .nil
  | cons hp _ ih =>
    exact .cons (Piece.writtenAs hvalues (hplain _ List.mem_cons_self) hp)
      (ih fun p hp => hplain p (List.mem_cons_of_mem _ hp))

variable {σ : Type} [FieldSource σ]

/-- The new values of an update are those that its source has for the mapped fields. -/
theorem Updater.row_of_prepare {u : Updater} {changes : σ} {condition : Option Condition} {ordering : List OrderBy}
    {limit : Option Nat} {row : Row} {targets : List Target}
    (h : u.prepare changes condition ordering limit = .ok (row, targets)) :
    Row.ofSource u.fields changes = .ok row := by
  unfold prepare at h
  split at h
  · cases h
  · obtain ⟨row', hrow, h⟩ := bind_eq_ok.1 h
    obtain ⟨targets', _, h⟩ := bind_eq_ok.1 h
    cases pure_eq_ok.1 h
    obtain ⟨row', hsource, hrow⟩ := bind_eq_ok.1 hrow
    split at hrow
    · cases hrow
    · cases pure_eq_ok.1 hrow
      exact hsource

/-- **What a direct update does**: the new values are those of its source, and there is one target, which is what the
update is about. -/
theorem Updater.prepare_direct {u : Updater} (hu : u.targeting = .direct) {changes : σ} {condition : Option Condition}
    {ordering : List OrderBy} {limit : Option Nat} {prepared : Row × List Target}
    (h : u.prepare changes condition ordering limit = .ok prepared) : ∃ cond, condition = some cond ∧
    Row.ofSource u.fields changes = .ok prepared.1 ∧ prepared.2 = [⟨cond, ordering, limit, none⟩] := by
  have hrow := row_of_prepare h
  unfold prepare at h
  split at h
  · cases h
  · next cond =>
    obtain ⟨row, _, h⟩ := bind_eq_ok.1 h
    obtain ⟨targets, htargets, h⟩ := bind_eq_ok.1 h
    cases pure_eq_ok.1 h
    rw [Updater.targets, hu] at htargets
    exact ⟨cond, rfl, hrow, (Except.ok.inj htargets).symm⟩

/-- **What a direct removal does**: there is one target, which is what the removal is about. -/
theorem Deleter.prepare_direct {d : Deleter} (hd : d.targeting = .direct) {condition : Option Condition}
    {ordering : List OrderBy} {limit offset : Option Nat} {targets : List Target}
    (h : d.prepare condition ordering limit offset = .ok targets) : ∃ cond, condition = some cond ∧
    targets = [⟨cond, ordering, limit, offset⟩] := by
  unfold prepare at h
  split at h
  · cases h
  · next cond =>
    rw [Deleter.targets, hd] at h
    exact ⟨cond, rfl, (Except.ok.inj h).symm⟩

namespace Resource

section

variable {c : Config} {updating deleting : Targeting} {condition : Option Condition} {ordering : List OrderBy}
  {limit offset : Option Nat} {drafts : List Draft}

/-- A direct update has one draft. -/
theorem drafts_update_direct {changes : σ}
    (h : (assemble c .direct deleting).drafts (.update changes condition ordering limit) = .ok drafts) :
    ∃ cond row, condition = some cond ∧
      drafts = [(assemble c .direct deleting).updater.draft row ⟨cond, ordering, limit, none⟩] := by
  obtain ⟨⟨row, targets⟩, hprepare, rfl⟩ := map_eq_ok.1 h
  obtain ⟨cond, hcondition, _, rfl⟩ := Updater.prepare_direct rfl hprepare
  exact ⟨cond, row, hcondition, rfl⟩

/-- A direct removal has one draft. -/
theorem drafts_delete_direct
    (h : (assemble c updating .direct).drafts (.delete condition ordering limit offset : Operation σ) = .ok drafts) :
    ∃ cond, condition = some cond ∧
      drafts = [(assemble c updating .direct).deleter.draft ⟨cond, ordering, limit, offset⟩] := by
  obtain ⟨targets, hprepare, rfl⟩ := map_eq_ok.1 h
  obtain ⟨cond, hcondition, rfl⟩ := Deleter.prepare_direct rfl hprepare
  exact ⟨cond, hcondition, rfl⟩

end

/-- Every draft of a resource is bound with the tokens of its style. -/
theorem drafts_ofStyle (c : Config) (updating deleting : Targeting) {op : Operation σ} {drafts : List Draft}
    (h : (assemble c updating deleting).drafts op = .ok drafts) :
    ∀ d ∈ drafts, d.OfStyle c.placeholders c.fields := by
  intro d hd
  obtain ⟨hfields, hvalues⟩ := drafts_walked c updating deleting h d hd
  exact ⟨hfields, hvalues ▸ Statement.bound_ofScheme c.placeholders c.fields d.statement⟩

/-- A call whose text is the template of a draft with every piece written as it should be: tokens as they are, values
by placeholders whose positions are those of arguments with the same canonical text, texts of a condition that name a
field by its column. The cells of an update are the values of its changes. -/
def Carries (c : Config) (updating deleting : Targeting) (op : Operation σ) (call : Call) : Prop :=
  ∃ drafts draft pieces parts, (assemble c updating deleting).drafts op = .ok drafts ∧ draft ∈ drafts ∧
    draft.statement.units template c.fields = .ok pieces ∧ call.sql = Sql.render parts.flatten ∧
    List.Forall₂ (Piece.WrittenAs c.fields call.args) pieces parts ∧
    ∀ changes condition ordering limit, op = .update changes condition ordering limit →
      ∃ row, Row.ofSource c.fields changes = .ok row ∧ cells pieces = row.values

/-- **Every value finds its argument**, in every call of every operation. -/
theorem calls_carry_values (c : Config) (updating deleting : Targeting) (op : Operation σ) (store : Recorder)
    {call : Call} (h : call ∈ (assemble c updating deleting).calls op store) : Carries c updating deleting op call := by
  obtain ⟨drafts, draft, request, hdrafts, hmem, hrequest, rfl⟩ := mem_calls h
  obtain ⟨pieces, parts, hpieces, hparts, hsql⟩ :=
    (drafts_ofStyle c updating deleting hdrafts draft hmem).request_written hrequest
  refine ⟨drafts, draft, pieces, parts, hdrafts, hmem, hpieces, hsql, hparts, ?_⟩
  rintro changes condition ordering limit rfl
  obtain ⟨⟨row, targets⟩, hprepare, rfl⟩ := map_eq_ok.1 hdrafts
  obtain ⟨target, _, rfl⟩ := List.mem_map.1 hmem
  exact ⟨row, Updater.row_of_prepare hprepare, Update.cells_units hpieces⟩

/-- A new value that is the name of a field is bound, and the same text in the condition is the column of that field. -/
theorem update_carries_field_name :
    ∃ call ∈ (assemble Config.users .direct .direct).calls Operation.renameNick Recorder.empty,
      call.sql = "UPDATE \"users\" SET \"nick\" = %1$s WHERE (\"nick\" = \"full_name\") AND (\"full_name\" = %2$s)" ∧
        Carries Config.users .direct .direct Operation.renameNick call := by
  have hcalls : ((assemble Config.users .direct .direct).calls Operation.renameNick Recorder.empty).map Call.sql =
      ["UPDATE \"users\" SET \"nick\" = %1$s WHERE (\"nick\" = \"full_name\") AND (\"full_name\" = %2$s)"] := by
    decide +kernel
  obtain ⟨call, hcall, hsql⟩ := List.mem_map.1 (hcalls ▸ List.mem_singleton_self _)
  exact ⟨call, hcall, hsql, calls_carry_values Config.users .direct .direct Operation.renameNick Recorder.empty hcall⟩

end Resource

end BoundSql
