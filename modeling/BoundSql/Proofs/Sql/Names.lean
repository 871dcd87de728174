import BoundSql.Proofs.Sql.AnyStatement
import BoundSql.Proofs.Sql.Collected
import BoundSql.Proofs.Sql.Command

/-!
# Names stay between their quotes

By the lexical rules of SQL the text of a statement has exactly the tokens that it was laid out from, whatever its names
are (`Statement.names_enclosed`). The parts of names among them are those of the names that the statement writes
(`Statement.paths`), in order: a name is written as its parts between dots, each between quotes, as it is, and as
nothing else. Exchanging a part for any other changes this token and no other one. So quoting tells any two names apart.
-/

namespace BoundSql

open Sql (Token Context Writer Gathers scan render namePath pathTokens nameTokens fieldTokens tableTokens orderTokens
  limitTokens whereUnits scopeUnits conditionUnits boundTokens quoteName separated splitDots)

/-! ## Names that a statement writes -/

/-- Names of a table: its own, and its alias. -/
def TableRef.paths (t : TableRef) : List (List String) := namePath t.name :: (t.aliasName.map namePath).toList

/-- Columns that a condition names, by its fields and by literals that name a field. -/
def Condition.paths (fields : FieldMap) (c : Condition) : List (List String) :=
  c.collected (fun f => [fields.path f]) fun v => ((fields.named? v).map namePath).toList

/-- Columns that an order names. -/
def Sql.orderPaths (fields : FieldMap) (ordering : List OrderBy) : List (List String) :=
  ordering.filterMap fun o => (fields.column? o.field).map namePath

/-- Names in the clause that finds the rows of a statement; a part of the rows is found through its own selection. -/
def Sql.scopePaths (fields : FieldMap) (table : String) (condition : Option Condition) (ordering : List OrderBy)
    (limit offset : Option Nat) : List (List String) :=
  if ordering.isEmpty && limit.isNone && offset.isNone then condition.toList.flatMap (Condition.paths fields)
  else [namePath table] ++ condition.toList.flatMap (Condition.paths fields) ++ orderPaths fields ordering

/-- Names that a statement writes, by their parts and in order. -/
def Statement.paths (fields : FieldMap) : Statement → List (List String)
  | select s => (s.fields.entries.flatMap fun e => [namePath e.2, namePath e.1]) ++ s.tables.flatMap TableRef.paths ++
      (s.joins.flatMap fun j => j.table.paths ++ j.condition.paths fields) ++
      s.condition.toList.flatMap (Condition.paths fields) ++ Sql.orderPaths fields s.ordering
  | insert s => namePath s.table :: s.columns.map namePath
  | update s => namePath s.table :: s.changes.keys.map namePath ++
      Sql.scopePaths fields s.table s.condition s.ordering s.limit none
  | delete s => namePath s.table :: Sql.scopePaths fields s.table s.condition s.ordering s.limit s.offset

namespace Sql

/-! ## Parts of names among tokens -/

/-- A token that is a part of a name or a dot. -/
def Token.namePart (t : Token) : List Token := if t.isNamePart then [t] else []

theorem flatMap_namePart (ts : List Token) : ts.flatMap Token.namePart = ts.filter Token.isNamePart := by
  induction ts with
  | nil => rfl
  | cons t ts ih =>
    rw [List.flatMap_cons, List.filter_cons, ih, Token.namePart]
    split <;> rfl

theorem pathTokens_isNamePart (path : List String) : ∀ t ∈ pathTokens path, t.isNamePart = true := by
  intro t ht
  rcases mem_separated ht with rfl | ⟨ts, hts, ht⟩
  · rfl
  · obtain ⟨part, _, rfl⟩ := List.mem_map.1 hts
    cases List.mem_singleton.1 ht
    rfl

theorem flatMap_pathTokens (path : List String) : (pathTokens path).flatMap Token.namePart = pathTokens path := by
  rw [flatMap_namePart, List.filter_eq_self]
  exact pathTokens_isNamePart path

section

variable (ctx : Context)

/-- Columns that a scalar of a condition names. -/
def scalarPaths (fields : FieldMap) (v : Value) : List (List String) := ((fields.named? v).map namePath).toList

theorem boundTokens_gathers (values : Bindings) (v : Value) : Gathers Token.namePart (boundTokens values v) [] := by
  unfold boundTokens
  split
  · exact .ok rfl
  · split
    · exact .ok rfl
    · exact .error _

theorem Context.writer_holds :
    ctx.writer.Holds Token.namePart fun v => (scalarPaths ctx.fields v).flatMap pathTokens where
  token t ht := by
    show Token.namePart t = []
    rw [Token.namePart, ht]
    rfl
  null := rfl
  scalar v := by
    have hbound := boundTokens_gathers ctx.values v
    dsimp only [Context.writer, scalarTokens, scalarPaths]
    split
    · next column hcolumn =>
      refine .ok ?_
      rw [hcolumn, nameTokens_eq, flatMap_pathTokens]
      exact (List.append_nil _).symm
    · next hnone =>
      rw [hnone]
      exact hbound

/-! ## Fixed tokens -/

theorem Context.held_name (name : String) :
    ctx.writer.held Token.namePart (nameTokens name) = pathTokens (namePath name) := by
  rw [Writer.held, Writer.fixed, Context.writer, List.map_id, nameTokens_eq, flatMap_pathTokens]

theorem Context.held_field (f : FieldRef) :
    ctx.writer.held Token.namePart (fieldTokens ctx.fields f) = [ctx.fields.path f].flatMap pathTokens := by
  rw [Writer.held, Writer.fixed, Context.writer, List.map_id, (fieldTokens_eq ctx.fields f).1, flatMap_pathTokens,
    List.flatMap_singleton]

theorem Context.held_aliased (name other : String) :
    ctx.writer.held Token.namePart (nameTokens name ++ .keyword .as :: nameTokens other) =
      pathTokens (namePath name) ++ pathTokens (namePath other) := by
  rw [Writer.held_append, ctx.writer_holds.held_cons rfl, ctx.held_name, ctx.held_name]

theorem Context.held_table (t : TableRef) :
    ctx.writer.held Token.namePart (tableTokens t) = t.paths.flatMap pathTokens := by
  unfold tableTokens TableRef.paths
  cases t.aliasName with
  | none => simp [ctx.held_name]
  | some a => simp [ctx.held_aliased]

theorem Context.held_criterion {o : OrderBy} {ts : List Token} (h : criterionTokens ctx.fields o = .ok ts) :
    ctx.writer.held Token.namePart ts = ((ctx.fields.column? o.field).map namePath).toList.flatMap pathTokens := by
  have hdirection : ctx.writer.held Token.namePart [.keyword (directionKeyword o.direction)] = [] :=
    ctx.writer_holds.held_eq_nil (by simp [Token.isNamePart])
  unfold criterionTokens at h
  split at h
  · next column hcolumn =>
    cases h
    simp [ctx.held_name, hdirection, hcolumn]
  · cases h

theorem Context.held_criteria {ordering : List OrderBy} {parts : List (List Token)}
    (h : List.Forall₂ (fun o ts => criterionTokens ctx.fields o = .ok ts) ordering parts) :
    parts.flatMap (ctx.writer.held Token.namePart) = (orderPaths ctx.fields ordering).flatMap pathTokens := by
  rw [orderPaths, List.filterMap_eq_flatMap_toList, List.flatMap_assoc]
  induction h with
  | nil => rfl
  | cons hpart _ ih => rw [List.flatMap_cons, List.flatMap_cons, ctx.held_criterion hpart, ih]

theorem Context.held_order {ordering : List OrderBy} {ts : List Token} (h : orderTokens ctx.fields ordering = .ok ts) :
    ctx.writer.held Token.namePart ts = (orderPaths ctx.fields ordering).flatMap pathTokens := by
  unfold orderTokens at h
  split at h
  · next hempty =>
    cases h
    rw [List.isEmpty_iff.1 hempty]
    rfl
  · obtain ⟨parts, hparts, h⟩ := bind_eq_ok.1 h
    cases pure_eq_ok.1 h
    rw [ctx.writer_holds.held_cons rfl, ctx.writer_holds.held_cons rfl, ctx.writer_holds.held_separated rfl]
    exact ctx.held_criteria (mapM_eq_ok.1 hparts)

theorem Context.held_head (s : Select) : ctx.writer.held Token.namePart s.head =
    ((s.fields.entries.flatMap fun e => [namePath e.2, namePath e.1]) ++ s.tables.flatMap TableRef.paths).flatMap
      pathTokens := by
  have hw := ctx.writer_holds
  have hcolumns : ctx.writer.held Token.namePart (if s.fields.isEmpty then [.star] else
      separated .comma (s.fields.entries.map fun e => nameTokens e.2 ++ .keyword .as :: nameTokens e.1)) =
      (s.fields.entries.flatMap fun e => [namePath e.2, namePath e.1]).flatMap pathTokens := by
    split
    · next hempty =>
      have hentries : s.fields.entries = [] := List.isEmpty_iff.1 hempty
      rw [hentries, hw.held_eq_nil (by decide)]
      rfl
    · rw [hw.held_separated rfl, List.flatMap_map, List.flatMap_assoc]
      exact List.flatMap_congr fun e _ => by simp [ctx.held_aliased]
  have htables : ctx.writer.held Token.namePart (separated .comma (s.tables.map tableTokens)) =
      (s.tables.flatMap TableRef.paths).flatMap pathTokens := by
    rw [hw.held_separated rfl, List.flatMap_map, List.flatMap_assoc]
    exact List.flatMap_congr fun t _ => ctx.held_table t
  rw [List.flatMap_append, ← hcolumns, ← htables, Select.head, Writer.held_append, hw.held_cons rfl, hw.held_cons rfl]

/-! ## Clauses -/

theorem Context.paths_collected (c : Condition) : (c.paths ctx.fields).flatMap pathTokens =
    c.collected (fun f => [ctx.fields.path f].flatMap pathTokens) fun v =>
      (scalarPaths ctx.fields v).flatMap pathTokens :=
  c.collected_flatMap _ _ pathTokens

theorem Context.where_paths (condition : Option Condition) : Gathers Token.namePart
    (whereUnits ctx.writer ctx.fields condition)
    ((condition.toList.flatMap (Condition.paths ctx.fields)).flatMap pathTokens) := by
  rw [List.flatMap_assoc, funext ctx.paths_collected]
  exact whereUnits_gathers ctx.writer_holds ctx.held_field condition

theorem Context.join_paths (j : Join) : Gathers Token.namePart (joinUnits ctx.writer ctx.fields j)
    ((j.table.paths ++ j.condition.paths ctx.fields).flatMap pathTokens) := by
  rw [List.flatMap_append, ctx.paths_collected, ← ctx.held_table]
  exact joinUnits_gathers ctx.writer_holds ctx.held_field j

theorem Context.scope_paths (table : String) (condition : Option Condition) (ordering : List OrderBy)
    (limit offset : Option Nat) : Gathers Token.namePart
    (scopeUnits ctx.writer ctx.fields table condition ordering limit offset)
    ((scopePaths ctx.fields table condition ordering limit offset).flatMap pathTokens) := by
  have hscope := scopeUnits_gathers ctx.writer_holds ctx.held_field table condition ordering limit offset
    fun _ => ctx.held_order
  rw [← funext ctx.paths_collected, ← List.flatMap_assoc, ctx.held_name] at hscope
  unfold scopePaths
  split
  · next hall => rwa [if_pos hall] at hscope
  · next hpart =>
    rw [if_neg hpart] at hscope
    simpa using hscope

theorem Context.row_paths (columns : List String) (row : Row) :
    Gathers Token.namePart (Insert.rowUnits ctx.writer columns row) [] := by
  refine .traverse (fun _ => []) (fun column _ => ?_) fun cells hcells => .ok ?_
  · cases row.get? column with
    | none => exact .ok rfl
    | some v => exact boundTokens_gathers ctx.values v
  · rw [ctx.writer_holds.parenthesized, ctx.writer_holds.listed, hcells]
    simp

end

end Sql

/-! ## Statements -/

section

open Sql

variable (ctx : Context)

theorem Select.units_paths (s : Select) : Gathers Token.namePart (s.units ctx.writer ctx.fields)
    (((Statement.select s).paths ctx.fields).flatMap pathTokens) := by
  unfold Select.units
  split
  · exact .error _
  · refine .traverse _ (fun j _ => ctx.join_paths j) fun joins hjoins =>
      (ctx.where_paths s.condition).bind fun rows hrows => ?_
    cases horder : orderTokens ctx.fields s.ordering with
    | error f => exact .error f
    | ok order =>
      refine .ok ?_
      have hlimit : ctx.writer.held Token.namePart (limitTokens s.limit s.offset) = [] := by
        refine ctx.writer_holds.held_eq_nil ?_
        cases s.limit <;> cases s.offset <;> simp [limitTokens, Token.isNamePart]
      have hflatten : joins.flatten.flatMap Token.namePart = joins.flatMap (List.flatMap Token.namePart) := by
        rw [List.flatten_eq_flatMap, List.flatMap_assoc]
        rfl
      simp only [List.flatMap_append, Writer.flatMap_fixed, Writer.held_append, ctx.held_head, ctx.held_order horder,
        hlimit, hrows, hflatten, hjoins, Statement.paths, List.append_nil, List.flatMap_assoc]

theorem Insert.units_paths (s : Insert) : Gathers Token.namePart (s.units ctx.writer)
    (((Statement.insert s).paths ctx.fields).flatMap pathTokens) := by
  have hw := ctx.writer_holds
  have hinto : ctx.writer.held Token.namePart [.keyword .insert, .keyword .into] = [] := hw.held_eq_nil (by decide)
  have hcolumns : s.columns.flatMap (fun name => ctx.writer.held Token.namePart (nameTokens name)) =
      (s.columns.map namePath).flatMap pathTokens := by
    rw [List.flatMap_map]
    exact List.flatMap_congr fun name _ => ctx.held_name name
  have hfilled : Gathers Token.namePart
      (Insert.units.filled s ctx.writer ([.keyword .insert, .keyword .into] ++ nameTokens s.table))
      (((Statement.insert s).paths ctx.fields).flatMap pathTokens) := by
    refine .traverse _ (fun row _ => ctx.row_paths s.columns row) fun rows hrows => .ok ?_
    have hnone : rows.flatMap (List.flatMap Token.namePart) = [] := hrows.trans (by simp)
    have hclose : ctx.writer.held Token.namePart [.closeParen] = [] := hw.held_eq_nil (by decide)
    have hvalues : ctx.writer.held Token.namePart [.keyword .values] = [] := hw.held_eq_nil (by decide)
    rw [List.flatMap_append, Writer.flatMap_fixed, hw.listed, hnone, List.append_nil, Writer.held_append,
      Writer.held_append, Writer.held_append, Writer.held_append, hinto, ctx.held_name, hw.held_cons rfl,
      hw.held_separated rfl, List.flatMap_map, hcolumns, hclose, hvalues, List.append_nil, List.append_nil]
    rfl
  unfold Insert.units
  split
  · exact .error _
  · split
    · next hempty =>
      refine .ok ?_
      have hdefault : ctx.writer.held Token.namePart [.keyword .default, .keyword .values] = [] :=
        hw.held_eq_nil (by decide)
      rw [Writer.flatMap_fixed, Writer.held_append, Writer.held_append, hinto, ctx.held_name, hdefault, Statement.paths,
        List.isEmpty_iff.1 hempty]
      rfl
    · exact hfilled
  · split
    · exact .error _
    · exact hfilled

theorem Update.units_paths (s : Update) : Gathers Token.namePart (s.units ctx.writer ctx.fields)
    (((Statement.update s).paths ctx.fields).flatMap pathTokens) := by
  have hw := ctx.writer_holds
  unfold Update.units
  split
  · exact .error _
  · refine .traverse (fun change => pathTokens (namePath change.1)) (fun change _ => ?_) fun changes hchanges =>
      (ctx.scope_paths s.table s.condition s.ordering s.limit none).bind fun scope hscope => .ok ?_
    · have hassign : ctx.writer.held Token.namePart [.sign .equal] = [] := hw.held_eq_nil (by decide)
      refine (boundTokens_gathers ctx.values change.2).map fun us hus => ?_
      rw [List.flatMap_append, hus, Writer.flatMap_fixed, Writer.held_append, ctx.held_name, hassign, List.append_nil,
        List.append_nil]
    · have hset : ctx.writer.held Token.namePart [.keyword .set] = [] := hw.held_eq_nil (by decide)
      rw [List.flatMap_append, List.flatMap_append, hscope, hw.listed, hchanges, Writer.flatMap_fixed,
        Writer.held_append, hw.held_cons rfl, ctx.held_name, hset, List.append_nil]
      simp [Statement.paths, Dict.keys, List.flatMap_map]

theorem Delete.units_paths (s : Delete) : Gathers Token.namePart (s.units ctx.writer ctx.fields)
    (((Statement.delete s).paths ctx.fields).flatMap pathTokens) := by
  refine (ctx.scope_paths s.table s.condition s.ordering s.limit s.offset).bind fun scope hscope => .ok ?_
  rw [List.flatMap_append, hscope, Writer.flatMap_fixed, Writer.held_append, ctx.held_name,
    ctx.writer_holds.held_eq_nil (by decide)]
  rfl

/-- **The parts of names in a statement are those of the names that it writes**, in order. -/
theorem Statement.units_paths : ∀ s : Statement,
    Gathers Token.namePart (s.units ctx.writer ctx.fields) ((s.paths ctx.fields).flatMap pathTokens)
  | select s => s.units_paths ctx
  | insert s => s.units_paths ctx
  | update s => s.units_paths ctx
  | delete s => s.units_paths ctx

end

/-! ## Quoting -/

namespace Sql

theorem not_mem_splitDots (cs : List Char) : ∀ part ∈ splitDots cs, '.' ∉ part := by
  induction cs with
  | nil => exact List.forall_mem_singleton.2 List.not_mem_nil
  | cons c cs ih =>
    obtain ⟨part, parts, hparts⟩ := List.exists_cons_of_ne_nil (splitDots_ne_nil cs)
    rw [hparts, List.forall_mem_cons] at ih
    rw [splitDots, List.foldr_cons, ← splitDots, hparts]
    split
    · exact List.forall_mem_cons.2 ⟨List.not_mem_nil, List.forall_mem_cons.2 ih⟩
    · next hc =>
      refine List.forall_mem_cons.2 ⟨fun hmem => ?_, ih.2⟩
      rcases List.mem_cons.1 hmem with hmem | hmem
      · exact hc hmem.symm
      · exact ih.1 hmem

/-- Raw text of the parts of names. -/
def Token.part? : Token → Option String
  | .name part => some part
  | _ => none

theorem filterMap_pathTokens (path : List String) : (pathTokens path).filterMap Token.part? = path := by
  cases path with
  | nil => rfl
  | cons part path =>
    rw [pathTokens_cons, List.filterMap_cons, List.filterMap_flatMap]
    exact congrArg (part :: ·) (List.flatMap_singleton' path)

theorem scan_quoteName (name : String) : scan (quoteName name).toList = some (pathTokens (namePath name)) := by
  rw [quoteName, scan_render fun t ht => (styled_of_plain (nameTokens_plain name) t ht).readable, nameTokens_eq]

/-- **Quoting tells any two names apart.** -/
theorem quoteName_inj : Function.Injective quoteName := by
  intro name name' h
  have htokens : pathTokens (namePath name) = pathTokens (namePath name') :=
    Option.some.inj ((scan_quoteName name).symm.trans (h ▸ scan_quoteName name'))
  have hpaths := congrArg (List.filterMap Token.part?) htokens
  rw [filterMap_pathTokens, filterMap_pathTokens] at hpaths
  exact namePath_injective hpaths

end Sql

/-- **No name gets out of its quotes.** The lexical rules of SQL split the text of a statement into the tokens that it
was laid out from. The parts of names and the dots among them are those of the names that the statement writes, in
order, and any other text in the place of a part changes this token only. The parts of a name are those between its
dots, and quoting is injective. -/
theorem Statement.names_enclosed {values : Bindings} (hvalues : values.Styled) (fields : FieldMap) (s : Statement)
    {ts : List Token} (hts : s.units (Context.writer ⟨values, fields⟩) fields = .ok ts) :
    scan (render ts).toList = some ts ∧
    ts.filter Token.isNamePart = (s.paths fields).flatMap pathTokens ∧
    (∀ before part after, ts = before ++ .name part :: after → ∀ part',
      scan (render (before ++ .name part' :: after)).toList = some (before ++ .name part' :: after)) ∧
    (∀ name, scan (quoteName name).toList = some (pathTokens (namePath name)) ∧
      (pathTokens (namePath name)).filterMap Token.part? = namePath name ∧
      separated '.' ((namePath name).map String.toList) = name.toList ∧ ∀ part ∈ namePath name, '.' ∉ part.toList) ∧
    Function.Injective quoteName := by
  have hreadable : ∀ t ∈ ts, t.Readable := fun t ht => (units_styled hvalues hts t ht).readable
  refine ⟨Sql.scan_render hreadable, ?_, ?_, fun name => ⟨Sql.scan_quoteName name, Sql.filterMap_pathTokens _, ?_, ?_⟩,
    Sql.quoteName_inj⟩
  · rw [← Sql.flatMap_namePart]
    exact s.units_paths ⟨values, fields⟩ ts hts
  · rintro before part after rfl part'
    refine Sql.scan_render fun t ht => ?_
    rcases List.mem_append.1 ht with ht | ht
    · exact hreadable t (List.mem_append_left _ ht)
    · rcases List.mem_cons.1 ht with rfl | ht
      · trivial
      · exact hreadable t (List.mem_append_right _ (List.mem_cons_of_mem _ ht))
  · have hraw : String.toList ∘ String.ofList = id := funext fun _ => String.toList_ofList
    rw [namePath, List.map_map, hraw, List.map_id]
    exact Sql.separated_splitDots name.toList
  · intro part hpart
    obtain ⟨cs, hcs, rfl⟩ := List.mem_map.1 hpart
    rw [String.toList_ofList]
    exact Sql.not_mem_splitDots name.toList cs hcs

/-! ## Names that look like statements -/

/-- One bound value. -/
def Bindings.seven : Bindings := after [.value (Binder.ofStyle .numbered) (.int 7)]

theorem Bindings.seven_styled : seven.Styled :=
  after_styled fun _ hr => ⟨.numbered, List.mem_singleton.1 hr ▸ rfl⟩

/-- A removal whose names have quotes, blanks, dots and percent signs, or no characters. -/
def Delete.oddlyNamed : Delete where
  table := "a\x22; DROP TABLE \x22b.c"
  condition := some (.equalTo ⟨some "", "%1$d"⟩ (.int 7))
  ordering := []
  limit := none
  offset := none

/-- Tokens of this removal. -/
def Delete.oddTokens : List Token :=
  [.keyword .delete, .keyword .from, .name "a\x22; DROP TABLE \x22b", .dot, .name "c", .keyword .where, .name "", .dot,
    .name "%1$d", .sign .equal, .placeholder "%1$d"]

/-- These names stay names, and the only placeholder is the one that was bound. -/
theorem Delete.oddlyNamed_enclosed : Bindings.seven.Styled ∧
    (Statement.delete oddlyNamed).units (Context.writer ⟨.seven, Dict.empty⟩) Dict.empty = .ok oddTokens ∧
    render oddTokens =
      "DELETE FROM \x22a\x22\x22; DROP TABLE \x22\x22b\x22.\x22c\x22 WHERE \x22\x22.\x22%1$d\x22 = %1$d" ∧
    scan (render oddTokens).toList = some oddTokens ∧
    (Statement.delete oddlyNamed).paths Dict.empty = [["a\x22; DROP TABLE \x22b", "c"], ["", "%1$d"]] := by
  have hunits : (Statement.delete oddlyNamed).units (Context.writer ⟨.seven, Dict.empty⟩) Dict.empty =
      .ok oddTokens := by
    apply eq_ok_of_toOption
    decide +kernel
  have henclosed := Statement.names_enclosed Bindings.seven_styled Dict.empty (.delete oddlyNamed) hunits
  exact ⟨Bindings.seven_styled, hunits, by decide +kernel, henclosed.1, by decide +kernel⟩

end BoundSql
