import BoundSql.Proofs.Dict
import BoundSql.Proofs.Resource.Insertion

/-!
# What a row keeps of its source

A source has values under fields, a row has them under columns. The row is made of what the source holds of the mapped
fields, one after the other (`Row.ofSource_eq_ok`), so of the fields with one column it has the last one's value.

It keeps all that the source holds of the mapped fields iff those with one column hold one value. The rows of a field
map all do iff no two of its fields have one column (`Row.ofSource_keeps`), and then an insertion that succeeds has
inserted every value that its records hold (`Resource.inserted_keeps`). No check of a configuration asks for it
(`Row.sharedColumn_drops`).
-/

namespace BoundSql

namespace Row

variable {σ : Type} [FieldSource σ] {source : σ} {fields : FieldMap} {row row' : Row} {pairs : List (String × String)}

/-! ## What a source supplies -/

/-- Values that a source holds of some fields, under the columns of the fields. -/
def supplied (source : σ) (pairs : List (String × String)) : List (String × Value) :=
  pairs.filterMap fun p => (FieldSource.field source p.1).toOption.map (p.2, ·)

/-- The value of every mapped field that the source holds is under the column of the field. -/
def Keeps (fields : FieldMap) (source : σ) (row : Row) : Prop :=
  ∀ field column v, fields.column? field = some column → FieldSource.field source field = .ok v →
    row.get? column = some v

theorem mem_supplied {column : String} {v : Value} : (column, v) ∈ supplied source pairs ↔
    ∃ field, (field, column) ∈ pairs ∧ FieldSource.field source field = .ok v := by
  rw [supplied, List.mem_filterMap]
  constructor
  · rintro ⟨⟨field, column'⟩, hmem, h⟩
    obtain ⟨w, hw, heq⟩ := Option.map_eq_some_iff.1 h
    cases heq
    exact ⟨field, hmem, eq_ok_of_toOption hw⟩
  · rintro ⟨field, hmem, h⟩
    exact ⟨(field, column), hmem, by rw [h]; rfl⟩

theorem keys_supplied (source : σ) (pairs : List (String × String)) :
    ((supplied source pairs).map Prod.fst).Sublist (pairs.map Prod.snd) := by
  induction pairs with
  | nil => exact .slnil
  | cons p pairs ih =>
    rw [supplied, List.filterMap_cons]
    cases (FieldSource.field source p.1).toOption with
    | none => exact ih.cons p.2
    | some v => exact ih.cons_cons p.2

/-! ## Rows -/

/-- What is read of a field is what the source holds of it. -/
theorem field_of_cell {field : String} {value : Option Value} (h : cell source field = .ok value) :
    (FieldSource.field source field).toOption = value := by
  unfold cell at h
  split at h
  · cases h
  · next hv => rw [hv]; exact Except.ok.inj h
  · next hf =>
    rw [hf]
    split at h
    · exact Except.ok.inj h
    · cases h

theorem addCells_eq_ok : addCells source row pairs = .ok row' ↔
    (∀ p ∈ pairs, ∃ value, cell source p.1 = .ok value) ∧
      row' = (supplied source pairs).foldl (fun d p => d.insert p.1 p.2) row := by
  induction pairs generalizing row with
  | nil => exact ⟨fun h => ⟨nofun, (Except.ok.inj h).symm⟩, fun h => congrArg Except.ok h.2.symm⟩
  | cons p pairs ih =>
    obtain ⟨field, column⟩ := p
    rw [addCells, bind_eq_ok, List.forall_mem_cons]
    constructor
    · rintro ⟨value, hvalue, h⟩
      rw [supplied, List.filterMap_cons, field_of_cell hvalue]
      cases value with
      | none => exact ⟨⟨⟨none, hvalue⟩, (ih.1 h).1⟩, (ih.1 h).2⟩
      | some v => exact ⟨⟨⟨some v, hvalue⟩, (ih.1 h).1⟩, (ih.1 h).2⟩
    · rintro ⟨⟨⟨value, hvalue⟩, hcells⟩, hrow⟩
      rw [supplied, List.filterMap_cons, field_of_cell hvalue] at hrow
      refine ⟨value, hvalue, ?_⟩
      cases value with
      | none => exact ih.2 ⟨hcells, hrow⟩
      | some v => exact ih.2 ⟨hcells, hrow⟩

/-- **The row of a source is made of what the source holds**, if nothing else than a missing field is in the way. -/
theorem ofSource_eq_ok : ofSource fields source = .ok row ↔
    (∀ e ∈ fields.entries, ∃ value, cell source e.1 = .ok value) ∧
      row = Dict.ofList (supplied source fields.entries) := addCells_eq_ok

/-! ## Columns of several fields -/

/-- Different values for one column cannot both be kept. -/
theorem keeps_ofList_iff : Keeps fields source (Dict.ofList (supplied source fields.entries)) ↔
    ∀ column v w, (column, v) ∈ supplied source fields.entries → (column, w) ∈ supplied source fields.entries →
      v = w := by
  constructor
  · intro h column v w hv hw
    obtain ⟨field, hfield, hfieldv⟩ := mem_supplied.1 hv
    obtain ⟨other, hother, hotherw⟩ := mem_supplied.1 hw
    have hkept := h field column v (Dict.get?_of_mem hfield) hfieldv
    rw [h other column w (Dict.get?_of_mem hother) hotherw] at hkept
    exact (Option.some.inj hkept).symm
  · intro h field column v hcolumn hv
    have hmem : (column, v) ∈ supplied source fields.entries :=
      mem_supplied.2 ⟨field, Dict.mem_of_get? hcolumn, hv⟩
    obtain ⟨last, hlast⟩ := Dict.exists_lastValue? hmem
    rw [Dict.get?_ofList, hlast, h column last v (Dict.lastValue?_eq_some hlast) hmem]

/-- Where no two fields have one column, everything is kept. -/
theorem keeps_of_nodup (hcolumns : fields.columns.Nodup) (h : ofSource fields source = .ok row) :
    Keeps fields source row ∧ row.entries = supplied source fields.entries := by
  obtain ⟨-, rfl⟩ := ofSource_eq_ok.1 h
  have hdistinct : ((supplied source fields.entries).map Prod.fst).Nodup :=
    List.Nodup.sublist (keys_supplied source fields.entries) hcolumns
  refine ⟨keeps_ofList_iff.2 fun column v w hv hw => ?_, Dict.entries_ofList hdistinct⟩
  exact congrArg Prod.snd (List.inj_on_of_nodup_map hdistinct hv hw rfl)

/-- Every field is read of a record without lists. -/
theorem exists_cell_of_record {record : Record} (h : ∀ e ∈ record.entries, ∀ vs, e.2 ≠ .list vs) (field : String) :
    ∃ value, cell record field = .ok value := by
  have hfield : FieldSource.field record field = FieldSource.found field (record.get? field) := rfl
  unfold cell
  rw [hfield]
  cases hget : record.get? field with
  | none => exact ⟨none, rfl⟩
  | some v =>
    have hlist := h _ (Dict.mem_of_get? hget)
    cases v with
    | list vs => exact absurd rfl (hlist vs)
    | _ => exact ⟨_, rfl⟩

/-- Two fields with one column are not both kept of a record that tells them apart. -/
theorem exists_not_keeps (h : ¬fields.columns.Nodup) :
    ∃ (record : Record) (row : Row), ofSource fields record = .ok row ∧ ¬Keeps fields record row := by
  obtain ⟨e, he, e', he', hcolumn, hne⟩ : ∃ e ∈ fields.entries, ∃ e' ∈ fields.entries, e.2 = e'.2 ∧ e ≠ e' := by
    by_contra hall
    push Not at hall
    exact h ((List.nodup_map_iff_inj_on fields.distinct.of_map).2 hall)
  have hfield : e.1 ≠ e'.1 := fun heq => hne (List.inj_on_of_nodup_map fields.distinct he he' heq)
  -- the record gives these two fields different values
  let record : Record := Dict.ofList [(e.1, .bool true), (e'.1, .bool false)]
  have hentries : record.entries = [(e.1, .bool true), (e'.1, .bool false)] :=
    Dict.entries_ofList (by simpa using hfield)
  have hcells : ∀ p ∈ fields.entries, ∃ value, cell record p.1 = .ok value := fun p _ =>
    exists_cell_of_record (by rw [hentries]; simp) p.1
  have hheld (field : String) (v : Value) (hmem : (field, v) ∈ record.entries) :
      FieldSource.field record field = .ok v := by
    show FieldSource.found field (record.get? field) = _
    rw [Dict.get?_eq_some_iff.2 hmem]
    rfl
  have htrue := hheld e.1 (.bool true) (by rw [hentries]; exact List.mem_cons_self)
  have hfalse := hheld e'.1 (.bool false) (by rw [hentries]; exact List.mem_cons_of_mem _ List.mem_cons_self)
  refine ⟨record, _, ofSource_eq_ok.2 ⟨hcells, rfl⟩, fun hkeeps => ?_⟩
  have heq := keeps_ofList_iff.1 hkeeps e.2 _ _ (mem_supplied.2 ⟨e.1, he, htrue⟩)
    (mem_supplied.2 ⟨e'.1, hcolumn ▸ he', hfalse⟩)
  cases heq

/-- **A row keeps what its source holds iff fields with one column hold one value.** It has the last value for each
column. Where no two fields have one column, its entries are what the source supplies; where two have, some record is
not kept. -/
theorem ofSource_keeps (fields : FieldMap) (source : σ) (row : Row) (h : ofSource fields source = .ok row) :
    (∀ column, row.get? column = Dict.lastValue? (supplied source fields.entries) column) ∧
    (Keeps fields source row ↔ ∀ column v w, (column, v) ∈ supplied source fields.entries →
      (column, w) ∈ supplied source fields.entries → v = w) ∧
    (fields.columns.Nodup → Keeps fields source row ∧ row.entries = supplied source fields.entries) ∧
    (¬fields.columns.Nodup → ∃ (record : Record) (row : Row),
      ofSource fields record = .ok row ∧ ¬Keeps fields record row) := by
  obtain ⟨-, hrow⟩ := ofSource_eq_ok.1 h
  refine ⟨?_, ?_, fun hcolumns => keeps_of_nodup hcolumns h, exists_not_keeps⟩
  · rw [hrow]
    exact Dict.get?_ofList _
  · rw [hrow]
    exact keeps_ofList_iff

/-- A configuration of which two fields have one column. -/
def sharedColumn : Config where
  table := ⟨"users", none⟩
  fields := Dict.ofList [("name", "title"), ("nick", "title")]
  identifier := none
  placeholders := .numbered
  insertMode := .batched
  updateMode := .direct
  deleteMode := .direct
  tables := []
  joins := []

/-- A record that holds both fields. -/
def annBob : Record := Dict.ofList [("name", .text "Ann"), ("nick", .text "Bob")]

theorem annBob_keeps_iff : ofSource sharedColumn.fields annBob = .ok (Dict.ofList [("title", .text "Bob")]) ∧
    (Keeps sharedColumn.fields annBob (Dict.ofList [("title", .text "Bob")]) ↔
      ∀ column v w, (column, v) ∈ supplied annBob sharedColumn.fields.entries →
        (column, w) ∈ supplied annBob sharedColumn.fields.entries → v = w) := by
  have hrow : ofSource sharedColumn.fields annBob = .ok (Dict.ofList [("title", .text "Bob")]) := rfl
  exact ⟨hrow, (ofSource_keeps sharedColumn.fields annBob _ hrow).2.1⟩

/-- The checks let two fields have one column, and of a record that holds both the first one's value is dropped. -/
theorem sharedColumn_drops : sharedColumn.check = .ok () ∧
    sharedColumn.fields.column? "name" = some "title" ∧
    FieldSource.field annBob "name" = .ok (.text "Ann") ∧
    ∃ row, ofSource sharedColumn.fields annBob = .ok row ∧ row.get? "title" = some (.text "Bob") :=
  ⟨rfl, rfl, rfl, Dict.ofList [("title", .text "Bob")], rfl, rfl⟩

end Row

/-! ## Insertions -/

namespace Resource

variable {σ : Type} [FieldSource σ] {c : Config} {updating deleting : Targeting} {records : List σ} {store : Recorder}

/-- **An insertion that succeeds has inserted every value that its records hold of the mapped fields**, if no two of
them have one column. -/
theorem inserted_keeps {report : Insertion} (hcolumns : c.fields.columns.Nodup)
    (h : ((assemble c updating deleting).perform (.insert records) store).1 = .ok (.insertion report)) :
    List.Forall₂ (fun record texts => ∀ field column v, c.fields.column? field = some column →
        FieldSource.field record field = .ok v → texts column = v.text?)
      records (((assemble c updating deleting).calls (.insert records) store).flatMap Call.inserted) := by
  obtain ⟨rows, hrows, -, hinserted⟩ := inserted_of_insertion h
  rw [hinserted, List.forall₂_map_right_iff]
  refine hrows.imp fun record row hrow field column v hcolumn hv => ?_
  obtain ⟨hkeeps, -⟩ := Row.keeps_of_nodup hcolumns hrow
  rw [Row.texts, hkeeps field column v hcolumn hv, Option.bind_some]

end Resource

end BoundSql
