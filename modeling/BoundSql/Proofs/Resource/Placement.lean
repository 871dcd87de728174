import BoundSql.Proofs.FieldMap
import BoundSql.Proofs.Resource.Values
import BoundSql.Proofs.Sql.Placed

/-!
# Which arguments a text uses, and in which order

The placeholders of a call come in the order in which the scalars of its statement are bound
(`Resource.calls_keep_order`). An argument is used iff the text has a place for a scalar with its canonical text
(`Resource.calls_use_arguments`). So every argument is used, unless a literal is tested for membership in the empty
list: it is bound, but the test is written as a constant without it (`Resource.findAmong_leaves_surplus`).
-/

namespace BoundSql

open Sql (Token Piece Context template placeholders Uses)
open Placeholder (Style)

/-! ## Statements -/

namespace Statement

variable {style : Style} {fields : FieldMap} {s : Statement} {m : Bindings} {ts : List Token}

theorem units_readable (hm : m.OfScheme style.scheme) (hts : s.units (Context.writer ⟨m, fields⟩) fields = .ok ts) :
    ∀ t ∈ ts, t.Readable := fun t ht => (s.units_styled hm.styled hts t ht).readable

/-- Placeholders of a statement come in the order of the scalars that its text has a place for. -/
theorem placeholders_sublist (hs : ∀ i, s ≠ insert i) (hts : s.units (Context.writer ⟨m, fields⟩) fields = .ok ts) :
    (placeholders ts).Sublist (s.written.filterMap m.placeholderFor?) := by
  obtain ⟨pieces, hpieces, hfilled⟩ := (s.fills _ fields ts).1 hts
  rw [← s.units_holds fields hs pieces hpieces]
  exact Sql.placeholders_sublist (s.pieces_plain fields pieces hpieces) hfilled

/-- The scalars of rows are those of cells. -/
theorem rowScalars_cells (hs : ∀ i, s ≠ insert i) {pieces : List Piece} (hpieces : s.units template fields = .ok pieces)
    {v : Value} (hv : v ∈ s.rowScalars) : ∃ x, Piece.cell x ∈ pieces ∧ v ∈ (Piece.cell x).values := by
  cases s with
  | select s => cases hv
  | insert s => exact absurd rfl (hs s)
  | delete s => cases hv
  | update s =>
    obtain ⟨x, hx, hv⟩ := List.mem_flatMap.1 hv
    rw [← Update.cells_units hpieces] at hx
    obtain ⟨p, hp, hcell⟩ := List.mem_filterMap.1 hx
    cases p with
    | cell u =>
      cases hcell
      exact ⟨x, hp, hv⟩
    | _ => cases hcell

variable {i : Nat} {a v : Value}

/-- An argument is used for the value of a piece, unless that is written as a column. -/
theorem uses_of_piece (hm : m.OfScheme style.scheme) {pieces : List Piece} (hplain : ∀ p ∈ pieces, p.Plain)
    (hfilled : (Context.writer ⟨m, fields⟩).Filled pieces ts) {p : Piece} (hp : p ∈ pieces) (hv : v ∈ p.values)
    (hcolumn : (∃ x, p = .cell x) ∨ fields.named? v = none) (ha : m.args[i]? = some a)
    (hshares : v.sharesText a = true) : Uses ts (i + 1) := by
  obtain ⟨text, htext⟩ := hm.exists_placeholder ha hshares
  exact ⟨text, Sql.mem_placeholders hplain hfilled hp hv hcolumn htext, (hm.carried?_iff htext ha).2 hshares⟩

variable (hs : ∀ i, s ≠ insert i) (hbound : s.bound style fields = ⟨m, none⟩)
  (hts : s.units (Context.writer ⟨m, fields⟩) fields = .ok ts)

include hs hbound hts

/-- An argument is used for a scalar of a row. -/
theorem uses_row (hv : v ∈ s.rowScalars) (ha : m.args[i]? = some a) (hshares : v.sharesText a = true) :
    Uses ts (i + 1) := by
  obtain ⟨pieces, hpieces, hfilled⟩ := (s.fills _ fields ts).1 hts
  obtain ⟨x, hx, hv⟩ := rowScalars_cells hs hpieces hv
  exact uses_of_piece (ofScheme_of_bound hbound) (s.pieces_plain fields pieces hpieces) hfilled hx hv
    (Or.inl ⟨x, rfl⟩) ha hshares

/-- An argument is used for a scalar that the text has a place for. -/
theorem uses_written (hv : v ∈ s.written) (ha : m.args[i]? = some a) (hshares : v.sharesText a = true) :
    Uses ts (i + 1) := by
  obtain ⟨pieces, hpieces, hfilled⟩ := (s.fills _ fields ts).1 hts
  rw [← s.units_holds fields hs pieces hpieces] at hv
  obtain ⟨p, hp, hv⟩ := List.mem_flatMap.1 hv
  have hm := ofScheme_of_bound hbound
  cases hnamed : fields.named? v with
  | none =>
    exact uses_of_piece hm (s.pieces_plain fields pieces hpieces) hfilled hp hv (Or.inr hnamed) ha hshares
  | some column =>
    -- the text is written as a column, so it was bound for a row, and rows are written as they are
    obtain ⟨canonical, hcanonical, ha'⟩ := Value.sharesText_iff.1 hshares
    obtain ⟨key, hkey, hkey'⟩ := hm.key_of_args ha
    cases Except.ok.inj (ha'.symm.trans hkey')
    obtain ⟨u, hu, hu'⟩ := bound_name hbound hkey (FieldMap.mem_fields_of_named? hcanonical hnamed)
    exact uses_row hs hbound hts hu ha (Value.sharesText_iff.2 ⟨canonical, hu', ha'⟩)

/-- **An argument is used iff the text has a place for a scalar with its canonical text.** -/
theorem uses_iff (ha : m.args[i]? = some a) : Uses ts (i + 1) ↔ ∃ v ∈ s.written, v.sharesText a = true := by
  constructor
  · rintro ⟨text, htext, hcarried⟩
    obtain ⟨v, hv, hplaceholder⟩ := List.mem_filterMap.1 ((placeholders_sublist hs hts).subset htext)
    exact ⟨v, hv, ((ofScheme_of_bound hbound).carried?_iff hplaceholder ha).1 hcarried⟩
  · rintro ⟨v, hv, hshares⟩
    exact uses_written hs hbound hts hv ha hshares

/-- Every argument is used if no literal is tested for membership in the empty list. -/
theorem uses_all (hlossless : ∀ c ∈ s.conditions, c.Lossless) {position : Nat} (h1 : 1 ≤ position)
    (h2 : position ≤ m.args.length) : Uses ts position := by
  obtain ⟨i, rfl⟩ := Nat.exists_eq_add_of_le' h1
  have ha : m.args[i]? = some m.args[i] := List.getElem?_eq_getElem h2
  obtain ⟨canonical, hkey, hcanonical⟩ := (ofScheme_of_bound hbound).key_of_args ha
  obtain ⟨v, hv, hv'⟩ := bound_met hbound hkey
  rw [← written_eq hlossless] at hv
  exact (uses_iff hs hbound hts ha).2 ⟨v, hv, Value.sharesText_iff.2 ⟨canonical, hv', hcanonical⟩⟩

end Statement

/-! ## Calls -/

variable {σ : Type} [FieldSource σ]

namespace Resource

/-- A call that was made of a draft: the values of the draft are bound by a walk over its statement, they are the
arguments of the call, and its text is the statement written over them. -/
structure MadeOf (c : Config) (updating deleting : Targeting) (op : Operation σ) (call : Call) (draft : Draft)
    (m : Bindings) (ts : List Token) : Prop where
  drafted : ∃ drafts, (assemble c updating deleting).drafts op = .ok drafts ∧ draft ∈ drafts
  values : draft.values = ⟨m, none⟩
  bound : draft.statement.bound c.placeholders c.fields = ⟨m, none⟩
  units : draft.statement.units (Context.writer ⟨m, c.fields⟩) c.fields = .ok ts
  call_eq : call = ⟨op.kind, Sql.render ts, m.args⟩

variable {c : Config} {updating deleting : Targeting} {op : Operation σ} {store : Recorder} {call : Call}

/-- A draft that can be written makes a call. -/
theorem madeOf_of_request {drafts : List Draft} {draft : Draft} {request : Recorder.Request}
    (hdrafts : (assemble c updating deleting).drafts op = .ok drafts) (hmem : draft ∈ drafts)
    (hrequest : draft.request = .ok request) :
    ∃ m ts, MadeOf c updating deleting op (request.call op.kind) draft m ts := by
  obtain ⟨m, ts, hvalues, hunits, rfl⟩ := Draft.request_eq_ok hrequest
  obtain ⟨hfields, hbound⟩ := drafts_walked c updating deleting hdrafts draft hmem
  rw [hfields] at hunits
  exact ⟨m, ts, ⟨drafts, hdrafts, hmem⟩, hvalues, hbound.symm.trans hvalues, hunits, rfl⟩

/-- Every call was made of a draft. -/
theorem exists_madeOf (h : call ∈ (assemble c updating deleting).calls op store) :
    ∃ draft m ts, MadeOf c updating deleting op call draft m ts := by
  obtain ⟨drafts, draft, request, hdrafts, hmem, hrequest, rfl⟩ := mem_calls h
  exact ⟨draft, madeOf_of_request hdrafts hmem hrequest⟩

variable {draft : Draft} {m : Bindings} {ts : List Token}

/-- The text of a call can be read back. -/
theorem MadeOf.scan (h : MadeOf c updating deleting op call draft m ts) : Sql.scan call.sql.toList = some ts := by
  rw [h.call_eq]
  exact Sql.scan_render (Statement.units_readable (Statement.ofScheme_of_bound h.bound) h.units)

theorem MadeOf.ne_insert (h : MadeOf c updating deleting op call draft m ts) (hop : ∀ records, op ≠ .insert records)
    (i : Insert) : draft.statement ≠ .insert i := by
  obtain ⟨drafts, hdrafts, hmem⟩ := h.drafted
  exact drafts_ne_insert _ hop hdrafts draft hmem i

/-- **Placeholders come in the order in which values are bound.** Read back from the text of a query, an update or a
removal, they are placeholders of the scalars of its statement, in the order in which the walk over the statement meets
these. -/
theorem calls_keep_order (hop : ∀ records, op ≠ .insert records)
    (h : call ∈ (assemble c updating deleting).calls op store) : ∃ draft m ts,
    MadeOf c updating deleting op call draft m ts ∧ Sql.scan call.sql.toList = some ts ∧
      (placeholders ts).Sublist (draft.statement.scalars.filterMap m.placeholderFor?) := by
  obtain ⟨draft, m, ts, hmade⟩ := exists_madeOf h
  have hwritten := Statement.placeholders_sublist (hmade.ne_insert hop) hmade.units
  have hbound := draft.statement.written_sublist.filterMap m.placeholderFor?
  exact ⟨draft, m, ts, hmade, hmade.scan, hwritten.trans hbound⟩

/-- A text that names a field is met in an update both as a new value and in the condition, and is a placeholder where
it is a new value. -/
theorem renameNick_keeps_order : ∃ call ∈ (assemble Config.users .direct .direct).calls Operation.renameNick .empty,
    ∃ draft m ts, MadeOf Config.users .direct .direct Operation.renameNick call draft m ts ∧
      Sql.scan call.sql.toList = some ts ∧
        (placeholders ts).Sublist (draft.statement.scalars.filterMap m.placeholderFor?) := by
  have hcalls : ((assemble Config.users .direct .direct).calls Operation.renameNick .empty).length = 1 := by
    decide +kernel
  obtain ⟨call, hcall⟩ := List.exists_mem_of_length_pos (hcalls ▸ Nat.one_pos)
  exact ⟨call, hcall, calls_keep_order nofun hcall⟩

/-- **An argument is used iff the text has a place for a value of the same canonical text**, in every query, update
and removal. So all are used if no literal is tested for membership in the empty list. -/
theorem calls_use_arguments (hop : ∀ records, op ≠ .insert records)
    (h : call ∈ (assemble c updating deleting).calls op store) : ∃ draft m ts,
    MadeOf c updating deleting op call draft m ts ∧ Sql.scan call.sql.toList = some ts ∧
      (∀ i a, call.args[i]? = some a → (Uses ts (i + 1) ↔ ∃ v ∈ draft.statement.written, v.sharesText a = true)) ∧
      ((∀ condition ∈ draft.statement.conditions, condition.Lossless) →
        ∀ position, 1 ≤ position → position ≤ call.args.length → Uses ts position) := by
  obtain ⟨draft, m, ts, hmade⟩ := exists_madeOf h
  have hargs : call.args = m.args := congrArg Call.args hmade.call_eq
  refine ⟨draft, m, ts, hmade, hmade.scan, fun i a ha => ?_, fun hlossless position h1 h2 => ?_⟩
  · exact Statement.uses_iff (hmade.ne_insert hop) hmade.bound hmade.units (hargs ▸ ha)
  · exact Statement.uses_all (hmade.ne_insert hop) hmade.bound hmade.units hlossless h1 (hargs ▸ h2)

end Resource

/-- A query for the rows in which a value is one of others. -/
def Operation.findAmong (v : Value) (items : List Value) : Operation Record :=
  .select (some ⟨.in, [.literal v, .literal (.list items)], false⟩) [] none none

namespace Resource

/-- Values that are tested for membership, and those that they are tested against, are used. -/
theorem findAmong_uses_values :
    ∃ call ∈ (assemble Config.users .direct .direct).calls (.findAmong (.int 5) [.int 5, .int 7]) .empty,
      call.args.length = 2 ∧ ∃ ts, Sql.scan call.sql.toList = some ts ∧ Uses ts 1 ∧ Uses ts 2 := by
  have hcalls : ((assemble Config.users .direct .direct).calls (.findAmong (.int 5) [.int 5, .int 7]) .empty).map
      (·.args.length) = [2] := by
    decide +kernel
  obtain ⟨call, hcall, hlength⟩ := List.mem_map.1 (hcalls ▸ List.mem_singleton_self _)
  have hop : ∀ records, Operation.findAmong (.int 5) [.int 5, .int 7] ≠ .insert records := by
    unfold Operation.findAmong
    exact nofun
  obtain ⟨draft, m, ts, hmade, hscan, _, hall⟩ := calls_use_arguments hop hcall
  have hlossless : ∀ condition ∈ draft.statement.conditions, condition.Lossless := by
    obtain ⟨drafts, hdrafts, hdraft⟩ := hmade.drafted
    cases hdrafts
    obtain rfl := List.mem_singleton.1 hdraft
    exact List.forall_mem_singleton.2 ⟨fun hvoid => absurd hvoid Bool.false_ne_true, trivial, trivial, trivial⟩
  refine ⟨call, hcall, hlength, ts, hscan, hall hlossless 1 (by decide) ?_, hall hlossless 2 (by decide) ?_⟩
  · exact Nat.le_of_lt (hlength ▸ Nat.lt_add_one 1)
  · exact Nat.le_of_eq hlength.symm

/-- A value that is tested for membership in the empty list is an argument, but no placeholder leads to it. -/
theorem findAmong_leaves_surplus :
    ∃ call ∈ (assemble Config.users .direct .direct).calls (.findAmong (.int 5) []) .empty,
      call.args.length = 1 ∧ ∀ ts, Sql.scan call.sql.toList = some ts → ¬Uses ts 1 := by
  have hcalls : ((assemble Config.users .direct .direct).calls (.findAmong (.int 5) []) .empty).map
      (fun call => (call.args.length, (Sql.scan call.sql.toList).map placeholders)) = [(1, some [])] := by
    decide +kernel
  obtain ⟨call, hcall, hcall'⟩ := List.mem_map.1 (hcalls ▸ List.mem_singleton_self _)
  obtain ⟨hlength, hplaceholders⟩ := Prod.mk.inj hcall'
  refine ⟨call, hcall, hlength, ?_⟩
  rintro ts hscan ⟨text, htext, _⟩
  rw [hscan, Option.map_some] at hplaceholders
  rw [Option.some.inj hplaceholders] at htext
  cases htext

end Resource

end BoundSql
