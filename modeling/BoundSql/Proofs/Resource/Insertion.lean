import BoundSql.Proofs.FirstOccurrences
import BoundSql.Proofs.Resource.Runs
import BoundSql.Proofs.Sql.ReadBack

/-!
# What insertions store

Read back from its text, an insertion has a tuple for every row that it covers, and each tuple has a cell for every
column. The cell stores what the row has under the column: the word for a missing value if it has nothing there, and a
placeholder that leads to an argument with the same canonical text otherwise (`Call.InsertsRows`).

So the rows that a statement stores are the rows that were read from the records (`Call.inserted_eq`), whether all of
them go into one statement or each into one of its own (`Resource.insertions_store_rows`).
-/

namespace BoundSql

open Sql (Token Context Expr Command command? namePath)

/-! ## Rows by their texts -/

/-- Canonical text of what a row has under a column. -/
def Row.texts (row : Row) (column : String) : Option String := (row.get? column).bind Value.text?

/-- Canonical texts of the rows that a statement inserts, by column; nothing is stored under further columns. -/
def Sql.Command.inserted (args : List Value) : Command → List (String → Option String)
  | .insertDefaults _ => [fun _ => none]
  | .insert _ columns tuples =>
    tuples.map fun cells column => ((columns.zip cells).lookup (namePath column)).bind (Expr.text? args)
  | _ => []

/-- Canonical texts of the rows that a call inserts, by column, read from its text and its arguments. -/
def Call.inserted (call : Call) : List (String → Option String) :=
  match command? call.sql with
  | some command => command.inserted call.args
  | none => []

/-- A call that inserts some rows: a single row without any values, or a tuple of cells for every row. The columns are
those that some row has. -/
def Call.InsertsRows (table : String) (batch : List Row) (call : Call) : Prop :=
  (∃ row, batch = [row] ∧ row.keys = [] ∧ command? call.sql = some (.insertDefaults (namePath table))) ∨
  ∃ columns tuples, command? call.sql = some (.insert (namePath table) (columns.map namePath) tuples) ∧
    columns ≠ [] ∧ columns.Nodup ∧ (∀ column, column ∈ columns ↔ ∃ row ∈ batch, column ∈ row.keys) ∧
    List.Forall₂ (Row.StoredAs call.args columns) batch tuples

theorem Row.texts_of_not_mem {row : Row} {column : String} (h : column ∉ row.keys) : row.texts column = none := by
  rw [Row.texts, Dict.get?_eq_none_iff.2 h]
  rfl

theorem lookup_of_not_mem {columns : List String} {column : String} (h : column ∉ columns) (cells : List Expr) :
    ((columns.map namePath).zip cells).lookup (namePath column) = none := by
  induction columns generalizing cells with
  | nil => rfl
  | cons other columns ih =>
    cases cells with
    | nil => rfl
    | cons cell cells =>
      have hother : namePath column ≠ namePath other := fun heq =>
        h (Sql.namePath_injective heq ▸ List.mem_cons_self)
      rw [List.map_cons, List.zip_cons_cons, List.lookup_cons, beq_eq_false_iff_ne.2 hother]
      exact ih (fun hmem => h (List.mem_cons_of_mem _ hmem)) cells

/-- The cell under a column stores what the row has there. -/
theorem Row.StoredAs.lookup {args : List Value} {columns : List String} {row : Row} {cells : List Expr}
    (h : row.StoredAs args columns cells) {column : String} (hmem : column ∈ columns) :
    ∃ cell, ((columns.map namePath).zip cells).lookup (namePath column) = some cell ∧
      cell.Stores args ((row.get? column).getD .null) := by
  induction h with
  | nil => cases hmem
  | @cons other cell columns cells hcell _ ih =>
    rw [List.map_cons, List.zip_cons_cons, List.lookup_cons]
    by_cases heq : column = other
    · subst heq
      rw [beq_self_eq_true]
      exact ⟨cell, rfl, hcell⟩
    · rw [beq_eq_false_iff_ne.2 fun hpath => heq (Sql.namePath_injective hpath)]
      exact ih ((List.mem_cons.1 hmem).resolve_left heq)

/-- The cells that store a row have its texts. -/
theorem Row.StoredAs.texts_eq {args : List Value} {columns : List String} {row : Row} {cells : List Expr}
    (h : row.StoredAs args columns cells) (hkeys : ∀ column ∈ row.keys, column ∈ columns) :
    (fun column => (((columns.map namePath).zip cells).lookup (namePath column)).bind (Expr.text? args)) =
      row.texts := by
  funext column
  by_cases hmem : column ∈ columns
  · obtain ⟨cell, hlookup, hstores⟩ := h.lookup hmem
    rw [hlookup, Option.bind_some, hstores.text?_eq, Row.texts]
    cases row.get? column with
    | none => rfl
    | some v => rfl
  · rw [lookup_of_not_mem hmem, Row.texts_of_not_mem fun hkey => hmem (hkeys column hkey)]
    rfl

/-- **A call that inserts some rows stores these rows.** -/
theorem Call.InsertsRows.inserted_eq {table : String} {batch : List Row} {call : Call}
    (h : call.InsertsRows table batch) : call.inserted = batch.map Row.texts := by
  unfold Call.inserted
  rcases h with ⟨row, rfl, hkeys, hcommand⟩ | ⟨columns, tuples, hcommand, _, _, hcolumns, hstored⟩
  · rw [hcommand]
    have htexts : row.texts = fun _ => none := by
      funext column
      exact Row.texts_of_not_mem (hkeys ▸ List.not_mem_nil)
    rw [List.map_singleton, htexts]
    rfl
  · rw [hcommand]
    replace hcolumns : ∀ row ∈ batch, ∀ column ∈ row.keys, column ∈ columns :=
      fun row hrow column hkey => (hcolumns column).2 ⟨row, hrow, hkey⟩
    show tuples.map _ = _
    clear hcommand
    induction hstored with
    | nil => rfl
    | @cons row cells batch tuples hrow _ ih =>
      rw [List.map_cons, List.map_cons, hrow.texts_eq (hcolumns row List.mem_cons_self),
        ih fun row hrow => hcolumns row (List.mem_cons_of_mem _ hrow)]

/-- Calls that insert some batches store their rows, in order. -/
theorem flatMap_inserted {table : String} {batches : List (List Row)} {calls : List Call}
    (h : List.Forall₂ (Call.InsertsRows table) batches calls) :
    calls.flatMap Call.inserted = batches.flatten.map Row.texts := by
  induction h with
  | nil => rfl
  | cons hbatch _ ih => rw [List.flatMap_cons, List.flatten_cons, List.map_append, hbatch.inserted_eq, ih]

/-! ## Batches -/

/-- Rows that the n-th statement of an insertion covers. -/
def InsertMode.Covers (mode : InsertMode) (rows : List Row) (k : Nat) (batch : List Row) : Prop :=
  match mode with
  | .batched => k = 0 ∧ batch = rows
  | .perRecord => ∃ row, rows[k]? = some row ∧ batch = [row]

/-- Count of the statements for some records. -/
def InsertMode.statements (mode : InsertMode) (records : Nat) : Nat :=
  match mode with
  | .batched => min records 1
  | .perRecord => records

/-- A statement covers none but the rows. -/
theorem InsertMode.Covers.subset {mode : InsertMode} {rows batch : List Row} {k : Nat} (h : mode.Covers rows k batch) :
    batch ⊆ rows := by
  cases mode with
  | batched => exact h.2 ▸ List.Subset.refl rows
  | perRecord =>
    obtain ⟨row, hrow, rfl⟩ := h
    exact List.cons_subset.2 ⟨List.mem_of_getElem? hrow, List.nil_subset rows⟩

theorem Inserter.batches_getElem? {i : Inserter} {rows batch : List Row} {k : Nat} :
    (i.batches rows)[k]? = some batch ↔ i.mode.Covers rows k batch := by
  unfold Inserter.batches InsertMode.Covers
  cases i.mode with
  | batched =>
    cases k with
    | zero => exact ⟨fun h => ⟨rfl, (Option.some.inj h).symm⟩, fun h => congrArg some h.2.symm⟩
    | succ k => exact ⟨nofun, nofun⟩
  | perRecord =>
    simp only [List.getElem?_map, Option.map_eq_some_iff]
    constructor
    · rintro ⟨row, hrow, rfl⟩
      exact ⟨row, hrow, rfl⟩
    · rintro ⟨row, hrow, rfl⟩
      exact ⟨row, hrow, rfl⟩

theorem Inserter.length_batches (i : Inserter) {rows : List Row} (hne : rows ≠ []) :
    (i.batches rows).length = i.mode.statements rows.length := by
  have hpos : 0 < rows.length := List.length_pos_iff.2 hne
  unfold Inserter.batches InsertMode.statements
  cases i.mode with
  | batched =>
    show 1 = min rows.length 1
    omega
  | perRecord => simp

/-- The batches are the rows, cut into pieces. -/
theorem Inserter.flatten_batches (i : Inserter) (rows : List Row) : (i.batches rows).flatten = rows := by
  unfold Inserter.batches
  cases i.mode with
  | batched => simp
  | perRecord =>
    induction rows with
    | nil => rfl
    | cons row rows ih =>
      rw [List.map_cons, List.flatten_cons, ih]
      rfl

theorem mem_insertedColumns {batch : List Row} {column : String} :
    column ∈ firstOccurrences (batch.flatMap Dict.keys) ↔ ∃ row ∈ batch, column ∈ row.keys := by
  rw [mem_firstOccurrences, List.mem_flatMap]

/-! ## Insertions -/

namespace Resource

variable {σ : Type} [FieldSource σ] {c : Config} {updating deleting : Targeting} {records : List σ} {store : Recorder}

/-- The drafts of an insertion are those of the batches of its rows, which are read from the records one by one. -/
theorem insert_drafts {drafts : List Draft}
    (h : (assemble c updating deleting).drafts (.insert records) = .ok drafts) :
    ∃ rows, List.Forall₂ (fun record row => Row.ofSource c.fields record = .ok row) records rows ∧
      (rows = [] ∧ drafts = [] ∨ rows ≠ [] ∧
        drafts = ((assemble c updating deleting).inserter.batches rows).map
          (assemble c updating deleting).inserter.draft) := by
  simp only [Resource.drafts] at h
  split at h
  · next hempty =>
    cases h
    obtain rfl := List.isEmpty_iff.1 hempty
    exact ⟨[], .nil, Or.inl ⟨rfl, rfl⟩⟩
  · next hempty =>
    obtain ⟨rows, hrows, rfl⟩ := map_eq_ok.1 h
    replace hrows := mapM_eq_ok.1 hrows
    refine ⟨rows, hrows, Or.inr ⟨?_, rfl⟩⟩
    rintro rfl
    exact hempty (List.isEmpty_iff.2 (List.forall₂_nil_right_iff.1 hrows))

/-- A call for the draft of some rows inserts these rows. -/
theorem MadeOf.insertsRows {call : Call} {batch : List Row} {m : Bindings} {ts : List Token}
    (h : MadeOf c updating deleting (.insert records) call
      ((assemble c updating deleting).inserter.draft batch) m ts) : call.InsertsRows c.table.name batch := by
  have hargs : call.args = m.args := congrArg Call.args h.call_eq
  have hscheme : Bindings.OfScheme _ (Context.values ⟨m, c.fields⟩) := Statement.ofScheme_of_bound h.bound
  have hunits : Insert.units _ (Context.writer ⟨m, c.fields⟩) = .ok ts := h.units
  unfold Call.InsertsRows
  rw [h.command, hargs]
  rcases Insert.units_read hscheme hunits with
    ⟨hnone, ⟨row, hbatch⟩, hread⟩ | ⟨hne, tuples, hread, hstored⟩
  · replace hbatch : batch = [row] := hbatch
    refine Or.inl ⟨row, hbatch, ?_, hread⟩
    -- a column of the row would be one of the statement
    rw [List.eq_nil_iff_forall_not_mem]
    intro column hcolumn
    have hmem : column ∈ firstOccurrences (batch.flatMap Dict.keys) :=
      mem_insertedColumns.2 ⟨row, hbatch ▸ List.mem_cons_self, hcolumn⟩
    replace hnone : firstOccurrences (batch.flatMap Dict.keys) = [] := hnone
    rw [hnone] at hmem
    cases hmem
  · exact Or.inr ⟨_, tuples, hread, hne, nodup_firstOccurrences _, fun column => mem_insertedColumns, hstored⟩

/-- The n-th call of an insertion was made for the n-th batch of its rows. -/
theorem exists_madeOf_batch {k : Nat} {call : Call}
    (h : ((assemble c updating deleting).calls (.insert records) store)[k]? = some call) : ∃ rows batch m ts,
    List.Forall₂ (fun record row => Row.ofSource c.fields record = .ok row) records rows ∧
      c.insertMode.Covers rows k batch ∧ MadeOf c updating deleting (.insert records) call
        ((assemble c updating deleting).inserter.draft batch) m ts := by
  obtain ⟨drafts, draft, request, hdrafts, hdraft, hrequest, rfl⟩ := calls_getElem? h
  obtain ⟨rows, hrows, ⟨_, rfl⟩ | ⟨_, rfl⟩⟩ := insert_drafts hdrafts
  · cases hdraft
  · obtain ⟨m, ts, hmade⟩ := madeOf_of_request hdrafts (List.mem_of_getElem? hdraft) hrequest
    rw [List.getElem?_map, Option.map_eq_some_iff] at hdraft
    obtain ⟨batch, hbatch, rfl⟩ := hdraft
    exact ⟨rows, batch, m, ts, hrows, Inserter.batches_getElem?.1 hbatch, hmade⟩

/-- An insertion that succeeds inserts all of its rows, with as many statements as its mode takes for them. -/
theorem inserted_of_insertion {report : Insertion}
    (h : ((assemble c updating deleting).perform (.insert records) store).1 = .ok (.insertion report)) :
    ∃ rows, List.Forall₂ (fun record row => Row.ofSource c.fields record = .ok row) records rows ∧
      ((assemble c updating deleting).calls (.insert records) store).length =
        c.insertMode.statements records.length ∧
      ((assemble c updating deleting).calls (.insert records) store).flatMap Call.inserted =
        rows.map Row.texts := by
  obtain ⟨drafts, outcomes, hdrafts, _, hran⟩ := ran_of_insertion h
  obtain ⟨rows, hrows, hcases⟩ := insert_drafts hdrafts
  refine ⟨rows, hrows, ?_⟩
  rw [hran.length_calls, hrows.length_eq]
  have hcalls := hran.madeOf rfl hdrafts
  rcases hcases with ⟨rfl, rfl⟩ | ⟨hne, rfl⟩
  · rw [List.forall₂_nil_left_iff.1 hcalls]
    refine ⟨?_, rfl⟩
    cases c.insertMode <;> rfl
  · refine ⟨?_, ?_⟩
    · rw [List.length_map]
      exact Inserter.length_batches _ hne
    · rw [List.forall₂_map_left_iff] at hcalls
      have hinserts : List.Forall₂ (Call.InsertsRows c.table.name)
          ((assemble c updating deleting).inserter.batches rows) _ :=
        hcalls.imp fun batch call ⟨m, ts, hmade⟩ => hmade.insertsRows
      rw [flatMap_inserted hinserts, Inserter.flatten_batches]

/-- **What insertions store.** The n-th call inserts the n-th batch of the rows that are read from the records: all of
them at once, or one after the other. If the insertion succeeds, it has inserted them all, with one statement or with
one for each. So both modes insert the same rows. -/
theorem insertions_store_rows (c : Config) (updating deleting : Targeting) (records : List σ) (store : Recorder) :
    (∀ k call, ((assemble c updating deleting).calls (.insert records) store)[k]? = some call → ∃ rows batch,
      List.Forall₂ (fun record row => Row.ofSource c.fields record = .ok row) records rows ∧
        c.insertMode.Covers rows k batch ∧ call.InsertsRows c.table.name batch ∧
        call.inserted = batch.map Row.texts) ∧
    (∀ report, ((assemble c updating deleting).perform (.insert records) store).1 = .ok (.insertion report) → ∃ rows,
      List.Forall₂ (fun record row => Row.ofSource c.fields record = .ok row) records rows ∧
        ((assemble c updating deleting).calls (.insert records) store).length =
          c.insertMode.statements records.length ∧
        ((assemble c updating deleting).calls (.insert records) store).flatMap Call.inserted =
          rows.map Row.texts) ∧
    ∀ mode store' report report',
      ((assemble c updating deleting).perform (.insert records) store).1 = .ok (.insertion report) →
      ((assemble { c with insertMode := mode } updating deleting).perform (.insert records) store').1 =
        .ok (.insertion report') →
      ((assemble c updating deleting).calls (.insert records) store).flatMap Call.inserted =
        ((assemble { c with insertMode := mode } updating deleting).calls (.insert records) store').flatMap
          Call.inserted := by
  refine ⟨fun k call hcall => ?_, fun report hreport => inserted_of_insertion hreport,
    fun mode store' report report' hreport hreport' => ?_⟩
  · obtain ⟨rows, batch, m, ts, hrows, hcovers, hmade⟩ := exists_madeOf_batch hcall
    exact ⟨rows, batch, hrows, hcovers, hmade.insertsRows, hmade.insertsRows.inserted_eq⟩
  · obtain ⟨rows, hrows, _, hinserted⟩ := inserted_of_insertion hreport
    obtain ⟨rows', hrows', _, hinserted'⟩ := inserted_of_insertion hreport'
    have hsame : rows = rows' :=
      Except.ok.inj ((mapM_eq_ok.2 hrows).symm.trans (mapM_eq_ok.2 hrows'))
    rw [hinserted, hinserted', hsame]

end Resource

/-- The request of an insertion, its columns listed without the help of a set of what was seen. -/
theorem Inserter.request_eq (i : Inserter) : i.request = fun rows =>
    (i.binder.bindValues Bindings.empty (rows.flatMap Dict.values)).toExcept >>= fun values =>
      Sql.request (Insert.tokens ⟨i.table, (rows.flatMap Dict.keys).eraseDups, rows⟩) values i.fields := by
  funext rows
  rw [Inserter.request, firstOccurrences_eq]

/-- Three new users: one without a name, one without anything, and one with the nickname of the first. -/
def Record.newUsers : List Record :=
  [Dict.ofList [("nick", .text "Ann")], Dict.empty, Dict.ofList [("name", .text "Bob"), ("nick", .text "Ann")]]

namespace Resource

/-- Three users are stored alike by one statement, whose columns come as the users have them, and by three. -/
theorem newUsers_stored : ∃ call,
    (assemble Config.users .direct .direct).calls (.insert Record.newUsers) .empty = [call] ∧
      call.sql = "INSERT INTO \x22users\x22 (\x22nick\x22, \x22full_name\x22) " ++
        "VALUES (%1$s, NULL), (NULL, NULL), (%1$s, %2$s)" ∧
      (∃ rows : List Row, rows.length = 3 ∧ call.InsertsRows "users" rows) ∧
      ((assemble { Config.users with insertMode := .perRecord } .direct .direct).calls (.insert Record.newUsers)
        .empty).flatMap Call.inserted = call.inserted := by
  have hcalls : ((assemble Config.users .direct .direct).calls (.insert Record.newUsers) .empty).map (·.sql) =
      ["INSERT INTO \x22users\x22 (\x22nick\x22, \x22full_name\x22) " ++
        "VALUES (%1$s, NULL), (NULL, NULL), (%1$s, %2$s)"] := by
    simp only [calls, perform, Inserter.insert, Inserter.request_eq]
    decide +kernel
  have hinsert : ((assemble Config.users .direct .direct).inserter.insert Record.newUsers .empty).1 =
      .ok ⟨[], 1⟩ := by
    apply eq_ok_of_toOption
    simp only [Inserter.insert, Inserter.request_eq]
    decide +kernel
  have hinsert' : ((assemble { Config.users with insertMode := .perRecord } .direct .direct).inserter.insert
      Record.newUsers .empty).1 = .ok ⟨[none, none, none], 3⟩ := by
    apply eq_ok_of_toOption
    simp only [Inserter.insert, Inserter.request_eq]
    decide +kernel
  obtain ⟨call, hcall, hsql⟩ := List.map_eq_singleton_iff.1 hcalls
  obtain ⟨hstored, _, hsame⟩ := insertions_store_rows Config.users .direct .direct Record.newUsers .empty
  obtain ⟨rows, batch, hrows, ⟨_, rfl⟩, hinserts, _⟩ := hstored 0 call (hcall ▸ rfl)
  have hequal := hsame .perRecord .empty _ _ (congrArg (Answer.insertion <$> ·) hinsert)
    (congrArg (Answer.insertion <$> ·) hinsert')
  rw [hcall, List.flatMap_singleton] at hequal
  exact ⟨call, hcall, hsql, ⟨batch, hrows.length_eq.symm, hinserts⟩, hequal.symm⟩

end Resource

end BoundSql
