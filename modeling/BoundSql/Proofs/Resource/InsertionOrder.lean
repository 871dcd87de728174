import BoundSql.Proofs.Dict
import BoundSql.Proofs.Resource.Insertion
import BoundSql.Proofs.Sql.Placed
import Mathlib.Data.List.Nodup

/-!
# The order of insertions

The columns of a row come in the order of the field map (`Row.ofSource_keys`). Those of an insertion are collected over
its rows, so they come in this order if all rows have the same columns, as a single row does.

The values of a row are bound in the order of its columns, but written in the order of the statement's. So the
placeholders of an insertion come in the order of the arguments iff the texts of its rows first occur in the same order
either way (`Resource.insertions_in_order`). This holds if the rows have their columns in the order of the statement's;
where the first row lacks a column that the second has, it need not (`Resource.unevenUsers_out_of_order`).
-/

namespace BoundSql

open Sql (Token Context placeholders Plain separated plain_cons plain_singleton nameTokens_plain)
open Placeholder (Style carried?)

/-! ## Lists -/

/-- What a function does not keep can be left out before. -/
theorem filterMap_of_sublist {α β : Type} {f : α → Option β} {xs ys : List α} (h : xs.Sublist ys) (hnodup : ys.Nodup)
    (hnone : ∀ y ∈ ys, y ∉ xs → f y = none) : ys.filterMap f = xs.filterMap f := by
  induction h with
  | slnil => rfl
  | @cons xs ys y hrest ih =>
    obtain ⟨hy, hnodup⟩ := List.nodup_cons.1 hnodup
    have habsent := hnone y List.mem_cons_self fun hmem => hy (hrest.subset hmem)
    rw [List.filterMap_cons, habsent]
    exact ih hnodup fun z hz => hnone z (List.mem_cons_of_mem _ hz)
  | @cons_cons xs ys x hrest ih =>
    obtain ⟨hx, hnodup⟩ := List.nodup_cons.1 hnodup
    have hrest' := ih hnodup fun z hz habsent => by
      refine hnone z (List.mem_cons_of_mem _ hz) fun hmem => ?_
      rcases List.mem_cons.1 hmem with rfl | hmem
      · exact hx hz
      · exact habsent hmem
    rw [List.filterMap_cons, List.filterMap_cons, hrest']

/-- Results that have the same parts as their items have the same parts together. -/
theorem flatMap_of_forall₂ {α β γ : Type} {f : α → List γ} {g : β → List γ} {xs : List α} {ys : List β}
    (h : List.Forall₂ (fun x y => g y = f x) xs ys) : ys.flatMap g = xs.flatMap f := by
  induction h with
  | nil => rfl
  | cons hxy _ ih => rw [List.flatMap_cons, List.flatMap_cons, hxy, ih]

/-! ## The columns of a row -/

namespace Row

variable {σ : Type} [FieldSource σ] {source : σ}

/-- Cells are added behind those that are there, in the order of their fields. -/
theorem addCells_keys {row row' : Row} {pairs : List (String × String)} (h : addCells source row pairs = .ok row') :
    ∃ added, added.Sublist (pairs.map Prod.snd) ∧ row'.keys = row.keys ++ added := by
  induction pairs generalizing row with
  | nil =>
    cases h
    exact ⟨[], .slnil, (List.append_nil _).symm⟩
  | cons pair pairs ih =>
    obtain ⟨field, column⟩ := pair
    obtain ⟨value, _, h⟩ := bind_eq_ok.1 h
    cases value with
    | none =>
      obtain ⟨added, hadded, hkeys⟩ := ih h
      exact ⟨added, hadded.cons column, hkeys⟩
    | some v =>
      obtain ⟨added, hadded, hkeys⟩ := ih h
      rw [Dict.keys_insert] at hkeys
      split at hkeys
      · exact ⟨added, hadded.cons column, hkeys⟩
      · refine ⟨column :: added, hadded.cons_cons column, ?_⟩
        rw [hkeys, List.append_assoc, List.singleton_append]

/-- **The columns of a row come in the order of the field map.** -/
theorem ofSource_keys {fields : FieldMap} {row : Row} (h : ofSource fields source = .ok row) :
    row.keys.Sublist fields.columns := by
  obtain ⟨added, hadded, hkeys⟩ := addCells_keys h
  rw [hkeys]
  exact hadded

/-- Canonical texts of what a row has under some columns, in their order. -/
def textsUnder (row : Row) (columns : List String) : List String := columns.filterMap row.texts

/-- Columns that a row does not have do not count. -/
theorem textsUnder_sublist {row : Row} {columns : List String} (hnodup : columns.Nodup)
    (h : row.keys.Sublist columns) : row.textsUnder columns = row.textsUnder row.keys :=
  filterMap_of_sublist h hnodup fun _ _ hkey => texts_of_not_mem hkey

end Row

/-! ## The positions in a text -/

namespace Sql

/-- Positions that the placeholders among some tokens carry, in order. -/
def positions (ts : List Token) : List (Option Nat) := (placeholders ts).map carried?

theorem positions_append (ts us : List Token) : positions (ts ++ us) = positions ts ++ positions us := by
  simp [positions, placeholders]

theorem positions_plain {ts : List Token} (h : Plain ts) : positions ts = [] := by
  rw [positions, placeholders_plain h]
  rfl

theorem positions_separated (parts : List (List Token)) :
    positions (separated .comma parts) = parts.flatMap positions := by
  have hbehind : ∀ parts : List (List Token),
      positions (parts.flatMap (Token.comma :: ·)) = parts.flatMap positions := by
    intro parts
    induction parts with
    | nil => rfl
    | cons part parts ih =>
      rw [List.flatMap_cons, List.flatMap_cons, positions_append, ih]
      rfl
  cases parts with
  | nil => rfl
  | cons part parts => rw [separated, positions_append, hbehind, List.flatMap_cons]

end Sql

namespace Insert

theorem head_plain (s : Insert) : Plain ([.keyword .insert, .keyword .into] ++ Sql.nameTokens s.table) :=
  (plain_cons rfl (plain_singleton rfl)).append (nameTokens_plain s.table)

theorem columns_plain (s : Insert) :
    Plain (.openParen :: separated .comma (s.columns.map Sql.nameTokens) ++ [.closeParen]) := by
  have hnames : Plain (separated .comma (s.columns.map Sql.nameTokens)) := by
    refine .separated rfl ?_
    intro part hpart
    obtain ⟨column, _, rfl⟩ := List.mem_map.1 hpart
    exact nameTokens_plain column
  exact (plain_cons rfl hnames).append (plain_singleton rfl)

variable {style : Style} {ctx : Context} (hvalues : ctx.values.OfScheme style.scheme) {ts : List Token}

include hvalues

/-- The placeholder of a cell carries the place of its text. -/
theorem cell_positions {row : Row} {column : String}
    (h : (row.get? column).elim (.ok (ctx.writer.fixed [.keyword .null])) ctx.writer.cell = .ok ts) :
    Sql.positions ts = ((row.texts column).map (positionOf ctx.values.keys)).toList := by
  unfold Row.texts
  cases hget : row.get? column with
  | none =>
    rw [hget] at h
    cases h
    rfl
  | some v =>
    rw [hget] at h
    replace h : Sql.boundTokens ctx.values v = .ok ts := h
    rw [Option.bind_some, Sql.positions, Sql.placeholders_boundTokens h]
    cases htoken : ctx.values.placeholderFor? v with
    | some token =>
      obtain ⟨text, _, htext, hcarried⟩ := hvalues.carried?_eq htoken
      rw [htext]
      exact congrArg (fun position => [position]) hcarried
    | none =>
      -- only a missing value is written without a placeholder
      unfold Sql.boundTokens at h
      rw [htoken] at h
      split at h
      · next hnull =>
        cases v with
        | null => rfl
        | _ => cases hnull
      · cases h

theorem rowUnits_positions {columns : List String} {row : Row} (h : rowUnits ctx.writer columns row = .ok ts) :
    Sql.positions ts = (row.textsUnder columns).map (positionOf ctx.values.keys) := by
  obtain ⟨parts, hparts, h⟩ := bind_eq_ok.1 h
  cases pure_eq_ok.1 h
  have hcells := (mapM_eq_ok.1 hparts).imp fun column part hpart => cell_positions hvalues hpart
  have hinner : Sql.positions (ctx.writer.parenthesized (ctx.writer.listed parts)) = parts.flatMap Sql.positions := by
    show Sql.positions ([Token.openParen] ++ separated .comma parts ++ [.closeParen]) = _
    rw [Sql.positions_append, Sql.positions_append, Sql.positions_separated]
    exact List.append_nil _
  rw [hinner, flatMap_of_forall₂ hcells, Row.textsUnder, List.filterMap_eq_flatMap_toList, List.map_flatMap]
  refine congrArg (List.flatMap · columns) (funext fun column => ?_)
  cases row.texts column <;> rfl

theorem filled_positions {s : Insert}
    (h : units.filled s ctx.writer ([.keyword .insert, .keyword .into] ++ Sql.nameTokens s.table) = .ok ts) :
    Sql.positions ts = (s.rows.flatMap fun row => row.textsUnder s.columns).map (positionOf ctx.values.keys) := by
  obtain ⟨parts, hparts, h⟩ := bind_eq_ok.1 h
  cases pure_eq_ok.1 h
  have hrows := (mapM_eq_ok.1 hparts).imp fun row part hpart => rowUnits_positions hvalues hpart
  have hplain := (s.head_plain.append s.columns_plain).append (plain_singleton (t := .keyword .values) rfl)
  rw [Condition.fixed_writer, Sql.positions_append, Sql.positions_plain hplain, List.nil_append]
  show Sql.positions (separated .comma parts) = _
  rw [Sql.positions_separated, flatMap_of_forall₂ hrows, List.map_flatMap]

/-- **The placeholders of an insertion carry the places of the texts of its rows**, in the order of its columns. -/
theorem units_positions {s : Insert} (h : s.units ctx.writer = .ok ts) :
    Sql.positions ts = (s.rows.flatMap fun row => row.textsUnder s.columns).map (positionOf ctx.values.keys) := by
  unfold units at h
  split at h
  · cases h
  · next row hrows =>
    split at h
    · next hempty =>
      cases h
      have hwords : Plain [.keyword .default, .keyword .values] := plain_cons rfl (plain_singleton rfl)
      have hplain := s.head_plain.append hwords
      rw [hrows, List.isEmpty_iff.1 hempty, Condition.fixed_writer, Sql.positions_plain hplain]
      rfl
    · exact filled_positions hvalues h
  · split at h
    · cases h
    · exact filled_positions hvalues h

end Insert

/-! ## The order of the arguments -/

/-- Columns of the statement for some rows. -/
def Row.columnsOf (batch : List Row) : List String := (batch.flatMap Dict.keys).eraseDups

/-- Canonical texts of some rows in the order in which they are bound. -/
def Row.boundTexts (batch : List Row) : List String := batch.flatMap fun row => row.textsUnder row.keys

/-- Canonical texts of some rows in the order in which they are written. -/
def Row.writtenTexts (batch : List Row) : List String := batch.flatMap fun row => row.textsUnder (columnsOf batch)

namespace Row

variable {batch : List Row} {row : Row}

theorem writtenTexts_subset {text : String} (h : text ∈ writtenTexts batch) : text ∈ boundTexts batch := by
  obtain ⟨row, hrow, htext⟩ := List.mem_flatMap.1 h
  obtain ⟨column, _, htext⟩ := List.mem_filterMap.1 htext
  have hkey : column ∈ row.keys := by
    by_contra habsent
    rw [texts_of_not_mem habsent] at htext
    cases htext
  exact List.mem_flatMap.2 ⟨row, hrow, List.mem_filterMap.2 ⟨column, hkey, htext⟩⟩

/-- Rows that have their columns in the order of the statement's are written as they are bound. -/
theorem writtenTexts_eq (h : ∀ row ∈ batch, row.keys.Sublist (columnsOf batch)) :
    writtenTexts batch = boundTexts batch := by
  have hnodup : (columnsOf batch).Nodup := nodup_eraseDups _
  refine List.flatMap_congr ?_
  intro row hrow
  exact textsUnder_sublist hnodup (h row hrow)

/-- Columns that the first row has are all that there are. -/
theorem columnsOf_cons {rest : List Row} (h : ∀ other ∈ rest, other.keys ⊆ row.keys) :
    columnsOf (row :: rest) = row.keys := by
  have hnone : (rest.flatMap Dict.keys).removeAll row.keys = [] := by
    refine List.filter_eq_nil_iff.2 ?_
    intro column hcolumn
    obtain ⟨other, hother, hkey⟩ := List.mem_flatMap.1 hcolumn
    simp [h other hother hkey]
  have hkeys : row.keys.Nodup := row.distinct
  rw [columnsOf, List.flatMap_cons, List.eraseDups_append, hnone, eraseDups_of_nodup hkeys]
  exact List.append_nil _

theorem textsUnder_keys (row : Row) : row.textsUnder row.keys = row.values.filterMap Value.text? := by
  rw [textsUnder, Dict.keys, Dict.values, List.filterMap_map, List.filterMap_map]
  refine List.filterMap_congr ?_
  intro e he
  show row.texts e.1 = e.2.text?
  rw [texts, Dict.get?_of_mem he]
  rfl

/-- The scalars that a row is bound for have the texts of the row, unless it has a list. -/
theorem scalars_texts (h : ∀ v ∈ row.values, v.isNull = true ∨ ∃ text, v.text? = some text) :
    (row.values.flatMap Binder.scalarsOf).filterMap Value.text? = row.textsUnder row.keys := by
  rw [textsUnder_keys, List.filterMap_flatMap, List.filterMap_eq_flatMap_toList]
  refine List.flatMap_congr ?_
  intro v hv
  have htext := h v hv
  cases v with
  | null => rfl
  | list items =>
    rcases htext with hnull | ⟨text, htext⟩
    · cases hnull
    · cases htext
  | _ => exact (List.filterMap_eq_flatMap_toList _ _).trans (List.append_nil _)

end Row

/-- Values of rows that are inserted have texts, unless they are missing. -/
theorem Call.InsertsRows.text_of_value {table : String} {batch : List Row} {call : Call}
    (h : call.InsertsRows table batch) {row : Row} (hrow : row ∈ batch) {v : Value} (hv : v ∈ row.values) :
    v.isNull = true ∨ ∃ text, v.text? = some text := by
  obtain ⟨e, he, rfl⟩ := List.mem_map.1 hv
  have hkey : e.1 ∈ row.keys := List.mem_map_of_mem he
  rcases h with ⟨other, rfl, hkeys, _⟩ | ⟨columns, tuples, _, _, _, hcolumns, hstored⟩
  · obtain rfl := List.mem_singleton.1 hrow
    rw [hkeys] at hkey
    cases hkey
  · obtain ⟨cells, _, hcells⟩ := exists_of_forall₂_right hstored.flip hrow
    replace hcells : row.StoredAs call.args columns cells := hcells
    obtain ⟨cell, _, hstores⟩ := hcells.lookup ((hcolumns e.1).2 ⟨row, hrow, hkey⟩)
    rw [Dict.get?_of_mem he, Option.getD_some] at hstores
    unfold Sql.Expr.Stores at hstores
    split at hstores
    · next hnull => exact Or.inl hnull
    · obtain ⟨token, _, position, a, text, _, _, _, _, _, htext⟩ := hstores
      exact Or.inr ⟨text, Value.text?_eq_some.2 htext⟩

/-- Columns that a call inserts under, by their parts, in the order of its text. -/
def Call.columns (call : Call) : List (List String) :=
  match Sql.command? call.sql with
  | some (.insert _ columns _) => columns
  | _ => []

/-- The placeholders of a call, each where it first occurs, carry the positions of the arguments in order. -/
def Call.PlacedInOrder (call : Call) : Prop := ∃ ts, Sql.scan call.sql.toList = some ts ∧
  (Sql.positions ts).eraseDups = (List.range call.args.length).map fun i => some (i + 1)

namespace Resource

variable {σ : Type} [FieldSource σ] {c : Config} {updating deleting : Targeting} {records : List σ} {call : Call}
  {batch : List Row} {m : Bindings} {ts : List Token}

theorem MadeOf.columns (h : MadeOf c updating deleting (.insert records) call
    ((assemble c updating deleting).inserter.draft batch) m ts) :
    call.columns = (Row.columnsOf batch).map Sql.namePath := by
  have hscheme : Bindings.OfScheme _ (Context.values ⟨m, c.fields⟩) := Statement.ofScheme_of_bound h.bound
  have hunits : Insert.units _ (Context.writer ⟨m, c.fields⟩) = .ok ts := h.units
  rw [Call.columns, h.command, Row.columnsOf, ← firstOccurrences_eq]
  rcases Insert.units_read hscheme hunits with ⟨hnone, _, hread⟩ | ⟨_, tuples, hread, _⟩
  · replace hnone : firstOccurrences (batch.flatMap Dict.keys) = [] := hnone
    rw [hread, hnone]
    rfl
  · rw [hread]

/-- The texts of an insertion's bindings are those of its rows. -/
theorem MadeOf.keys_eq (h : MadeOf c updating deleting (.insert records) call
    ((assemble c updating deleting).inserter.draft batch) m ts) : m.keys = (Row.boundTexts batch).eraseDups := by
  obtain ⟨m₁, hrows, hconditions⟩ := Statement.bound_eq h.bound
  cases hconditions
  have hkeys := Binder.bindScalars_keys hrows List.nodup_nil
  have htexts : (Binder.ofStyle c.placeholders).texts
      (Statement.rowScalars ((assemble c updating deleting).inserter.draft batch).statement) =
        Row.boundTexts batch := by
    have hignored : ∀ text : String, !(Binder.ofStyle c.placeholders).ignored.contains text := fun _ => rfl
    rw [Binder.texts, List.filter_eq_self.2 fun text _ => hignored text]
    show ((batch.flatMap Dict.values).flatMap Binder.scalarsOf).filterMap Value.text? = _
    rw [List.flatMap_assoc, List.filterMap_flatMap]
    refine List.flatMap_congr ?_
    intro row hrow
    exact Row.scalars_texts fun v hv => h.insertsRows.text_of_value hrow hv
  rw [hkeys, htexts]
  rfl

/-- **The placeholders of an insertion come in the order of the arguments iff the texts of its rows first occur in the
same order by either reading.** -/
theorem MadeOf.placedInOrder_iff (h : MadeOf c updating deleting (.insert records) call
    ((assemble c updating deleting).inserter.draft batch) m ts) :
    call.PlacedInOrder ↔ (Row.writtenTexts batch).eraseDups = (Row.boundTexts batch).eraseDups := by
  have hscheme : Bindings.OfScheme _ (Context.values ⟨m, c.fields⟩) := Statement.ofScheme_of_bound h.bound
  have hunits : Insert.units _ (Context.writer ⟨m, c.fields⟩) = .ok ts := h.units
  have hargs : call.args.length = m.keys.length := by
    rw [h.call_eq, Bindings.length_args]
  have hpositions : Sql.positions ts = (Row.writtenTexts batch).map (positionOf m.keys) := by
    rw [Insert.units_positions hscheme hunits, Row.writtenTexts, Row.columnsOf, ← firstOccurrences_eq]
  have hmem : ∀ text ∈ Row.writtenTexts batch, text ∈ m.keys := by
    intro text htext
    rw [h.keys_eq, List.mem_eraseDups]
    exact Row.writtenTexts_subset htext
  have hiff := placed_in_order_iff hscheme.nodup hmem
  rw [← hpositions, ← hargs, h.keys_eq] at hiff
  rw [← hiff]
  constructor
  · rintro ⟨us, hscan, hus⟩
    rw [h.scan] at hscan
    exact Option.some.inj hscan ▸ hus
  · intro hts
    exact ⟨ts, h.scan, hts⟩

/-- **In which order insertions are written.** The columns of a call are those of its rows in the order of their first
occurrences, and those of each row come in the order of the field map. The placeholders come in the order of the
arguments iff the texts of the rows do, as they do if all rows have their columns in the order of the call's. So both
orders are kept if the first row has all columns of the others, which is always so for a single row. -/
theorem insertions_in_order (c : Config) (updating deleting : Targeting) (records : List σ) (store : Recorder) {k : Nat}
    {call : Call} (h : ((assemble c updating deleting).calls (.insert records) store)[k]? = some call) :
    ∃ rows batch, List.Forall₂ (fun record row => Row.ofSource c.fields record = .ok row) records rows ∧
      c.insertMode.Covers rows k batch ∧ call.columns = (Row.columnsOf batch).map Sql.namePath ∧
      (∀ row ∈ batch, row.keys.Sublist c.fields.columns) ∧
      (call.PlacedInOrder ↔ (Row.writtenTexts batch).eraseDups = (Row.boundTexts batch).eraseDups) ∧
      ((∀ row ∈ batch, row.keys.Sublist (Row.columnsOf batch)) → call.PlacedInOrder) ∧
      ∀ first rest, batch = first :: rest → (∀ other ∈ rest, other.keys.Sublist first.keys) →
        (Row.columnsOf batch).Sublist c.fields.columns ∧ call.PlacedInOrder := by
  obtain ⟨rows, batch, m, ts, hrows, hcovers, hmade⟩ := exists_madeOf_batch h
  have hdeclared : ∀ row ∈ batch, row.keys.Sublist c.fields.columns := by
    intro row hrow
    obtain ⟨record, _, hrecord⟩ := exists_of_forall₂_right hrows (hcovers.subset hrow)
    exact Row.ofSource_keys hrecord
  have hordered : (∀ row ∈ batch, row.keys.Sublist (Row.columnsOf batch)) → call.PlacedInOrder := by
    intro hsublist
    rw [hmade.placedInOrder_iff, Row.writtenTexts_eq hsublist]
  refine ⟨rows, batch, hrows, hcovers, hmade.columns, hdeclared, hmade.placedInOrder_iff, hordered, ?_⟩
  rintro first rest rfl hrest
  have hcolumns : Row.columnsOf (first :: rest) = first.keys :=
    Row.columnsOf_cons fun other hother => (hrest other hother).subset
  rw [hcolumns] at hordered ⊢
  exact ⟨hdeclared first List.mem_cons_self, hordered (List.forall_mem_cons.2 ⟨.refl _, hrest⟩)⟩

end Resource

/-- Two users, the first of which lacks the first field. -/
def Record.unevenUsers : List Record :=
  [Dict.ofList [("nick", .text "a")], Dict.ofList [("name", .text "b"), ("nick", .text "c")]]

namespace Resource

/-- One by one, both users are stored in order. -/
theorem unevenUsers_in_order : ∃ call,
    ((assemble { Config.users with insertMode := .perRecord } .direct .direct).calls (.insert Record.unevenUsers)
      .empty)[1]? = some call ∧ call.args.length = 2 ∧ call.PlacedInOrder := by
  have hcalls : (((assemble { Config.users with insertMode := .perRecord } .direct .direct).calls
      (.insert Record.unevenUsers) .empty)[1]?).map (·.args.length) = some 2 := by
    simp only [calls, perform, Inserter.insert, Inserter.request_eq]
    decide +kernel
  obtain ⟨call, hcall, hlength⟩ := Option.map_eq_some_iff.1 hcalls
  obtain ⟨rows, batch, _, ⟨row, _, rfl⟩, _, _, _, _, hkept⟩ :=
    insertions_in_order { Config.users with insertMode := .perRecord } .direct .direct Record.unevenUsers .empty hcall
  have hrest : ∀ other ∈ ([] : List Row), other.keys.Sublist row.keys := List.forall_mem_nil _
  exact ⟨call, hcall, hlength, (hkept row [] rfl hrest).2⟩

/-- Together, they are not: the columns come in the order of the first user, and the placeholders in that of the
columns. -/
theorem unevenUsers_out_of_order : ∃ call,
    (assemble Config.users .direct .direct).calls (.insert Record.unevenUsers) .empty = [call] ∧
      call.columns = [["nick"], ["full_name"]] ∧ Config.users.fields.columns = ["full_name", "nick"] ∧
      ¬call.PlacedInOrder := by
  have hcalls : ((assemble Config.users .direct .direct).calls (.insert Record.unevenUsers) .empty).map
      (fun call => (call.columns, call.args.length, (Sql.scan call.sql.toList).map Sql.positions)) =
        [([["nick"], ["full_name"]], 3, some [some 1, some 3, some 2])] := by
    simp only [calls, perform, Inserter.insert, Inserter.request_eq]
    decide +kernel
  obtain ⟨call, hcall, hcall'⟩ := List.map_eq_singleton_iff.1 hcalls
  obtain ⟨hcolumns, hcall'⟩ := Prod.mk.inj hcall'
  obtain ⟨hlength, hpositions⟩ := Prod.mk.inj hcall'
  refine ⟨call, hcall, hcolumns, by decide +kernel, ?_⟩
  rintro ⟨ts, hscan, hordered⟩
  rw [hscan, Option.map_some, Option.some.injEq] at hpositions
  rw [hpositions, hlength] at hordered
  exact absurd hordered (by decide)

end Resource

end BoundSql
