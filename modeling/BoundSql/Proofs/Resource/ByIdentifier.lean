import BoundSql.Proofs.Resource.Runs
import BoundSql.Proofs.Sql.ReadBack
import Std.Data.String.ToInt

/-!
# Updates and removals by identifiers

With identifiers, an update makes one call for each of the identifiers that it finds in its condition: the call assigns
the new values to the rows whose identifying column equals the identifier, and has no other condition
(`Resource.updates_by_identifier`). A removal makes one call for every thousand identifiers: the call removes the rows
whose identifying column is among these, and its arguments are these without repetitions
(`Resource.removals_by_identifier`). Either answers with the sum of what the store has reported.

The thousands are cut by a recursion that drops one of them at a time, so the n-th begins after n thousands
(`chunksOfSucc_getElem?`), and together they are the whole list (`flatten_chunksOfSucc`).
-/

namespace BoundSql

open Sql (Token Context Expr Reads command? namePath)
open Placeholder (StandsFor Style)

/-! ## Pieces of a list -/

section

variable {α : Type} {n : Nat}

/-- Counts of elements that fit into pieces. -/
theorem length_chunksOfSucc (n : Nat) (xs : List α) :
    (chunksOfSucc n xs).length = (xs.length + n) / (n + 1) := by
  fun_induction chunksOfSucc n xs with
  | case1 => exact (Nat.div_eq_of_lt (by simp)).symm
  | case2 x xs ih =>
    rw [List.length_cons, ih, List.length_drop, List.length_cons]
    rcases Nat.lt_or_ge xs.length n with hlt | hge
    · -- the piece is the last one
      have hrest : xs.length - n + n = n := by omega
      have hcount : xs.length + 1 + n = xs.length + (n + 1) := by omega
      rw [hrest, hcount, Nat.add_div_right _ (Nat.succ_pos n), Nat.div_eq_of_lt (Nat.lt_succ_self n),
        Nat.div_eq_of_lt (Nat.lt_succ_of_lt hlt)]
    · have hcount : xs.length + 1 + n = xs.length - n + n + (n + 1) := by omega
      rw [hcount, Nat.add_div_right _ (Nat.succ_pos n)]

/-- The n-th piece begins after n pieces. -/
theorem chunksOfSucc_getElem? {xs piece : List α} {k : Nat} (h : (chunksOfSucc n xs)[k]? = some piece) :
    piece = (xs.drop ((n + 1) * k)).take (n + 1) := by
  fun_induction chunksOfSucc n xs generalizing k with
  | case1 => cases h
  | case2 x xs ih =>
    cases k with
    | zero =>
      rw [List.getElem?_cons_zero] at h
      rw [← Option.some.inj h, Nat.mul_zero, List.drop_zero, List.take_succ_cons]
    | succ k =>
      rw [List.getElem?_cons_succ] at h
      have hstart : (n + 1) * (k + 1) = n + (n + 1) * k + 1 := by
        rw [Nat.mul_succ]
        omega
      rw [ih h, List.drop_drop, hstart, List.drop_succ_cons]

theorem chunksOfSucc_eq (n : Nat) (xs : List α) : chunksOfSucc n xs =
    (List.range ((xs.length + n) / (n + 1))).map fun k => (xs.drop ((n + 1) * k)).take (n + 1) := by
  refine List.ext_getElem (by rw [length_chunksOfSucc, List.length_map, List.length_range]) ?_
  intro k hk _
  rw [List.getElem_map, List.getElem_range]
  exact chunksOfSucc_getElem? (List.getElem?_eq_getElem hk)

/-- There is something in every piece. -/
theorem ne_nil_of_mem_chunksOfSucc {xs piece : List α} (h : piece ∈ chunksOfSucc n xs) : piece ≠ [] := by
  fun_induction chunksOfSucc n xs with
  | case1 => cases h
  | case2 x xs ih =>
    rcases List.mem_cons.1 h with rfl | h
    · exact List.cons_ne_nil _ _
    · exact ih h

/-- The pieces are the list. -/
theorem flatten_chunksOfSucc (n : Nat) (xs : List α) : (chunksOfSucc n xs).flatten = xs := by
  fun_induction chunksOfSucc n xs with
  | case1 => rfl
  | case2 x xs ih => rw [List.flatten_cons, ih, List.cons_append, List.take_append_drop]

end

/-! ## The statements -/

/-- Column of an identifying field; a field that is not mapped is a column itself. -/
def FieldMap.identifierColumn (fields : FieldMap) (identifier : FieldRef) : String :=
  (fields.column? identifier.field).getD identifier.field

/-- A call that assigns the values of a row, and nothing else, to all rows with an identifier. -/
def Call.UpdatesById (table column : String) (row : Row) (id : Int64) (call : Call) : Prop :=
  ∃ assignments token, command? call.sql = some (.update (namePath table) assignments
      (some (.compare (.sign .equal) (.column (namePath column)) (.placeholder token)))) ∧
    List.Forall₂ (Sql.AssignedTo call.args) row.entries assignments ∧ StandsFor call.args (.int id) token

/-- A token that leads to an argument. -/
def Placeholder.LeadsTo (args : List Value) (v : Value) (token : String) : Prop :=
  ∃ position, carried? token = some position ∧ 1 ≤ position ∧ args[position - 1]? = some v

/-- A call that removes all rows with one of some identifiers; its arguments are these, each of them once. -/
def Call.RemovesByIds (table column : String) (ids : List Int64) (call : Call) : Prop :=
  call.args = ids.eraseDups.map .int ∧
    ∃ tokens, command? call.sql = some (.delete (namePath table)
        (some (.among (.column (namePath column)) (tokens.map .placeholder)))) ∧
      List.Forall₂ (fun id token => Placeholder.LeadsTo call.args (.int id) token) ids tokens

/-! ## The arguments of a removal -/

/-- Decimal text of an integer. -/
def Value.integerText (id : Int64) : String := toString id.toInt

theorem Value.integerText_injective : Function.Injective integerText :=
  fun _ _ h => Int64.toInt_inj.1 (Int.repr_injective h)

theorem Condition.inList_scalars (f : FieldRef) (ids : List Int64) :
    (inList f (ids.map .int)).scalars = ids.map .int := by
  have hkept : (ids.map Value.int).filter (fun item => !item.isNull) = ids.map .int := by
    refine List.filter_eq_self.2 ?_
    intro v hv
    obtain ⟨id, _, rfl⟩ := List.mem_map.1 hv
    rfl
  rw [scalars_eq]
  show [] ++ ((ids.map Value.int).filter (fun item => !item.isNull) ++ []) = _
  rw [hkept, List.nil_append, List.append_nil]

section

variable {b : Binder} {values : Bindings} {ids : List Int64}
  (hbound : b.bindScalars .empty (ids.map .int) = ⟨values, none⟩)

include hbound

/-- What is bound for integers are integers. -/
theorem Binder.integer_of_args {a : Value} (ha : a ∈ values.args) : ∃ id, a = .int id := by
  rcases bindScalars_args hbound ha with ha | ha
  · cases ha
  · obtain ⟨id, _, rfl⟩ := List.mem_map.1 ha
    exact ⟨id, rfl⟩

/-- **Integers that are all bound are the arguments**, each of them once. -/
theorem Binder.integers_bound {style : Style} (hvalues : values.OfScheme style.scheme)
    (hall : ∀ id ∈ ids, ∃ token, StandsFor values.args (.int id) token) : values.args = ids.eraseDups.map .int := by
  have hnew : ∀ text ∈ (ids.map Value.int).filterMap Value.text?, (!b.ignored.contains text) = true := by
    intro text htext
    obtain ⟨v, hv, htext⟩ := List.mem_filterMap.1 htext
    obtain ⟨id, hid, rfl⟩ := List.mem_map.1 hv
    obtain ⟨token, position, a, canonical, _, _, _, ha, hcanonical, hv'⟩ := hall id hid
    obtain ⟨key, hkey, ha'⟩ := hvalues.key_of_args ha
    cases Except.ok.inj (ha'.symm.trans hcanonical)
    cases Except.ok.inj (hv'.symm.trans (Value.text?_eq_some.1 htext))
    rcases bindScalars_adds hbound hkey with hnone | ⟨hnew, _⟩
    · cases hnone
    · simpa using hnew
  have htexts : (ids.map Value.int).filterMap Value.text? = ids.map Value.integerText := by
    rw [List.filterMap_map]
    exact List.filterMap_eq_map_iff_forall_eq_some.2 fun id _ => rfl
  have hkeys := bindScalars_keys hbound List.nodup_nil
  rw [texts, List.filter_eq_self.2 hnew, htexts] at hkeys
  replace hkeys : values.keys = ids.eraseDups.map Value.integerText :=
    hkeys.trans (eraseDups_map fun id _ id' _ htext => Value.integerText_injective htext)
  refine eq_of_map_eq ?_ ((hvalues.map_text?_args).trans ?_)
  · intro a ha v hv htext
    obtain ⟨id, rfl⟩ := integer_of_args hbound ha
    obtain ⟨id', _, rfl⟩ := List.mem_map.1 hv
    rw [Value.integerText_injective (Option.some.inj htext)]
  · rw [hkeys, List.map_map, List.map_map]
    rfl

/-- What stands for an integer leads to it. -/
theorem Binder.leadsTo_of_standsFor {id : Int64} {token : String} (h : StandsFor values.args (.int id) token) :
    Placeholder.LeadsTo values.args (.int id) token := by
  obtain ⟨position, a, canonical, hcarried, hpositive, _, ha, hcanonical, hv⟩ := h
  obtain ⟨id', rfl⟩ := integer_of_args hbound (List.mem_of_getElem? ha)
  have htext : Value.integerText id' = Value.integerText id := Except.ok.inj (hcanonical.trans hv.symm)
  exact ⟨position, hcarried, hpositive, Value.integerText_injective htext ▸ ha⟩

end

/-! ## The targets -/

variable {σ : Type} [FieldSource σ]

/-- **What an update by identifiers does**: the new values are those of its source, and there is a target for each of
the identifiers, of which there are some. -/
theorem Updater.prepare_byIdentifier {u : Updater} {identifier : FieldRef}
    {resolve : Condition → Except Failure (List Int64)} (hu : u.targeting = .byIdentifier identifier resolve)
    {changes : σ} {condition : Option Condition} {ordering : List OrderBy} {limit : Option Nat}
    {prepared : Row × List Target} (h : u.prepare changes condition ordering limit = .ok prepared) : ∃ cond ids,
    condition = some cond ∧ Row.ofSource u.fields changes = .ok prepared.1 ∧ resolve cond = .ok ids ∧ ids ≠ [] ∧
      prepared.2 = ids.map fun id => Target.all (.equalTo (Targeting.fieldOf identifier) (.int id)) := by
  have hrow := Updater.row_of_prepare h
  unfold prepare at h
  split at h
  · cases h
  · next cond =>
    obtain ⟨row, _, h⟩ := bind_eq_ok.1 h
    obtain ⟨targets, htargets, h⟩ := bind_eq_ok.1 h
    cases pure_eq_ok.1 h
    rw [Updater.targets, hu] at htargets
    dsimp only at htargets
    split at htargets
    · cases htargets
    · obtain ⟨ids, hids, htargets⟩ := bind_eq_ok.1 htargets
      split at htargets
      · cases htargets
      · next hne =>
        cases pure_eq_ok.1 htargets
        exact ⟨cond, ids, rfl, hrow, hids, fun hnil => hne (List.isEmpty_iff.2 hnil), rfl⟩

/-- **What a removal by identifiers does**: there is a target for every thousand of the identifiers. -/
theorem Deleter.prepare_byIdentifier {d : Deleter} {identifier : FieldRef}
    {resolve : Condition → Except Failure (List Int64)} (hd : d.targeting = .byIdentifier identifier resolve)
    {condition : Option Condition} {ordering : List OrderBy} {limit offset : Option Nat} {targets : List Target}
    (h : d.prepare condition ordering limit offset = .ok targets) : ∃ cond ids,
    condition = some cond ∧ resolve cond = .ok ids ∧
      targets = (chunksOfSucc (idsPerStatement - 1) ids).map fun chunk =>
        Target.all (.inList (Targeting.fieldOf identifier) (chunk.map .int)) := by
  unfold prepare at h
  split at h
  · cases h
  · next cond =>
    rw [Deleter.targets, hd] at h
    obtain ⟨ids, hids, h⟩ := bind_eq_ok.1 h
    cases pure_eq_ok.1 h
    exact ⟨cond, ids, rfl, hids, rfl⟩

namespace Resource

section

variable {c : Config} {updating deleting : Targeting} {identifier : FieldRef}
  {resolve : Condition → Except Failure (List Int64)} {condition : Option Condition} {ordering : List OrderBy}
  {limit offset : Option Nat} {drafts : List Draft}

/-- The drafts of an update by identifiers are about one of these identifiers each. -/
theorem drafts_update_byIdentifier {changes : σ}
    (h : (assemble c (.byIdentifier identifier resolve) deleting).drafts (.update changes condition ordering limit) =
      .ok drafts) :
    ∃ cond ids row, condition = some cond ∧ resolve cond = .ok ids ∧ Row.ofSource c.fields changes = .ok row ∧
      drafts = ids.map fun id => (assemble c (.byIdentifier identifier resolve) deleting).updater.draft row
        (Target.all (.equalTo (Targeting.fieldOf identifier) (.int id))) := by
  obtain ⟨⟨row, targets⟩, hprepare, rfl⟩ := map_eq_ok.1 h
  obtain ⟨cond, ids, hcondition, hrow, hids, _, rfl⟩ := Updater.prepare_byIdentifier rfl hprepare
  exact ⟨cond, ids, row, hcondition, hids, hrow, List.map_map⟩

/-- The drafts of a removal by identifiers are about pieces of these identifiers. -/
theorem drafts_delete_byIdentifier
    (h : (assemble c updating (.byIdentifier identifier resolve)).drafts
      (.delete condition ordering limit offset : Operation σ) = .ok drafts) :
    ∃ cond ids, condition = some cond ∧ resolve cond = .ok ids ∧
      drafts = (chunksOfSucc (idsPerStatement - 1) ids).map fun piece =>
        (assemble c updating (.byIdentifier identifier resolve)).deleter.draft
          (Target.all (.inList (Targeting.fieldOf identifier) (piece.map .int))) := by
  obtain ⟨targets, hprepare, rfl⟩ := map_eq_ok.1 h
  obtain ⟨cond, ids, hcondition, hids, rfl⟩ := Deleter.prepare_byIdentifier rfl hprepare
  exact ⟨cond, ids, hcondition, hids, List.map_map⟩

end

end Resource

/-! ## Users with identifiers -/

/-- Users that are found by a number. -/
def Config.numberedUsers : Config where
  table := ⟨"users", none⟩
  fields := Dict.ofList [("id", "user_id"), ("nick", "nick")]
  identifier := some (.bare "id")
  placeholders := .numbered
  insertMode := .batched
  updateMode := .byIdentifier
  deleteMode := .byIdentifier
  tables := []
  joins := []

/-- The resource of these users. -/
def Resource.numberedUsers : Resource :=
  assemble Config.numberedUsers (.ofIdentifier (.bare "id")) (.ofIdentifier (.bare "id"))

/-- A new nickname for two users. -/
def Operation.renameTwo : Operation Record :=
  .update (Dict.ofList [("nick", .text "7")]) (some (.inList (.bare "id") [.int 9, .int 7])) [] none

/-- The removal of two users, one of which is named twice. -/
def Operation.removeTwo : Operation Record :=
  .delete (some (.inList (.bare "id") [.int 5, .int 7, .int 5])) [] none none

/-- A store that reports two rows of its first change, and three of the next one. -/
def Recorder.twoThenThree : Recorder := (Recorder.empty.scriptOutcome (.ok ⟨2, none⟩)).scriptOutcome (.ok ⟨3, none⟩)

theorem Recorder.outcomes_twoThenThree :
    twoThenThree.outcomes = ([⟨2, none⟩, ⟨3, none⟩] : List Outcome).map .ok := rfl

/-! ## Runs by identifiers -/

namespace Resource

variable {c : Config} {updating deleting : Targeting} {op : Operation σ} {call : Call}
  {identifier : FieldRef} {m : Bindings} {ts : List Token}

/-- A call for the draft of an identifier updates the rows with this identifier. -/
theorem MadeOf.updatesById {row : Row} {id : Int64} (h : MadeOf c updating deleting op call
    ((assemble c updating deleting).updater.draft row
      (Target.all (.equalTo (Targeting.fieldOf identifier) (.int id)))) m ts) :
    call.UpdatesById c.table.name (c.fields.identifierColumn identifier) row id := by
  have hargs : call.args = m.args := congrArg Call.args h.call_eq
  have hscheme : Bindings.OfScheme _ (Context.values ⟨m, c.fields⟩) := Statement.ofScheme_of_bound h.bound
  have hunits : Update.units _ (Context.writer ⟨m, c.fields⟩) c.fields = .ok ts := h.units
  obtain ⟨us, hus, hread⟩ := Update.units_read hscheme hunits
  obtain ⟨token, htoken, hstands⟩ := Condition.equalTo_read hscheme hus
  obtain ⟨assignments, hcommand, hassigned⟩ := hread _ htoken
  unfold Call.UpdatesById
  rw [hargs, h.command]
  exact ⟨assignments, token, hcommand, hassigned, hstands⟩

/-- A call for the draft of some identifiers removes the rows with one of them. -/
theorem MadeOf.removesByIds {ids : List Int64} (hne : ids ≠ []) (h : MadeOf c updating deleting op call
    ((assemble c updating deleting).deleter.draft
      (Target.all (.inList (Targeting.fieldOf identifier) (ids.map .int)))) m ts) :
    call.RemovesByIds c.table.name (c.fields.identifierColumn identifier) ids := by
  have hargs : call.args = m.args := congrArg Call.args h.call_eq
  have hscheme : Bindings.OfScheme _ (Context.values ⟨m, c.fields⟩) := Statement.ofScheme_of_bound h.bound
  have hunits : Delete.units _ (Context.writer ⟨m, c.fields⟩) c.fields = .ok ts := h.units
  obtain ⟨us, hus, hread⟩ := Delete.units_read hunits
  obtain ⟨tokens, htokens, hstands⟩ := Condition.inList_read hscheme hne hus
  obtain ⟨m₁, hrows, hbound⟩ := Statement.bound_eq h.bound
  cases hrows
  have hscalars : [Condition.inList (Targeting.fieldOf identifier) (ids.map .int)].flatMap Condition.scalars =
      ids.map .int := by
    rw [List.flatMap_singleton, Condition.inList_scalars]
  replace hbound : Binder.bindScalars _ .empty ([Condition.inList (Targeting.fieldOf identifier)
    (ids.map .int)].flatMap Condition.scalars) = _ := hbound
  rw [hscalars] at hbound
  have hall : ∀ id ∈ ids, ∃ token, StandsFor m.args (.int id) token := by
    intro id hid
    obtain ⟨token, _, htoken⟩ := exists_of_forall₂_right hstands.flip hid
    exact ⟨token, htoken⟩
  unfold Call.RemovesByIds
  rw [hargs, h.command]
  exact ⟨Binder.integers_bound hbound hscheme hall, tokens, hread _ htokens,
    hstands.imp fun _ _ hstand => Binder.leadsTo_of_standsFor hbound hstand⟩

/-- **What an update by identifiers has done if it succeeds.** There is a call for each of the identifiers that its
condition comes to, and the answer is the sum of what the store has reported of these calls. -/
theorem updates_by_identifier (c : Config) (deleting : Targeting) (identifier : FieldRef)
    (resolve : Condition → Except Failure (List Int64)) (changes : σ) (condition : Option Condition)
    (ordering : List OrderBy) (limit : Option Nat) (store : Recorder) {affected : Nat}
    (h : ((assemble c (.byIdentifier identifier resolve) deleting).perform
      (.update changes condition ordering limit) store).1 = .ok (.affected affected)) :
    ∃ cond row ids outcomes, condition = some cond ∧ Row.ofSource c.fields changes = .ok row ∧
      resolve cond = .ok ids ∧ ids ≠ [] ∧
      List.Forall₂ (fun id call => Call.UpdatesById c.table.name (c.fields.identifierColumn identifier) row id call)
        ids ((assemble c (.byIdentifier identifier resolve) deleting).calls
          (.update changes condition ordering limit) store) ∧
      outcomes.length = ids.length ∧ store.Reports outcomes ∧
      affected = (outcomes.map Outcome.affected).sum := by
  obtain ⟨drafts, outcomes, hdrafts, haffected, hran⟩ := ran_of_affected h
  obtain ⟨prepared, hprepare, hdrafts'⟩ := map_eq_ok.1 hdrafts
  obtain ⟨cond, ids, hcondition, hrow, hids, hne, htargets⟩ := Updater.prepare_byIdentifier rfl hprepare
  rw [htargets, List.map_map] at hdrafts'
  obtain ⟨hlength, hreports⟩ := hran.reported
  have hcalls := hran.madeOf rfl hdrafts
  rw [← hdrafts', List.forall₂_map_left_iff] at hcalls
  refine ⟨cond, prepared.1, ids, outcomes, hcondition, hrow, hids, hne, ?_, ?_, hreports, haffected⟩
  · exact hcalls.imp fun id call ⟨m, ts, hmade⟩ => hmade.updatesById
  · rw [hlength, ← hdrafts', List.length_map]

/-- The nickname of two users is set to a text that is also the identifier of one of them: it is bound once. The store
reports two rows and three, and the answer is five. -/
theorem renameTwo_by_identifier : ∃ call call' : Call,
    numberedUsers.calls Operation.renameTwo .twoThenThree = [call, call'] ∧
      call.sql = "UPDATE \x22users\x22 SET \x22nick\x22 = %1$s WHERE \x22user_id\x22 = %2$d" ∧
      call'.sql = "UPDATE \x22users\x22 SET \x22nick\x22 = %1$s WHERE \x22user_id\x22 = %1$s" ∧
      (∃ row, call.UpdatesById "users" "user_id" row 9 ∧ call'.UpdatesById "users" "user_id" row 7) ∧
      (numberedUsers.perform Operation.renameTwo .twoThenThree).1 = .ok (.affected 5) ∧
      ∃ outcomes, Recorder.twoThenThree.Reports outcomes ∧ outcomes.map Outcome.affected = [2, 3] ∧
        5 = (outcomes.map Outcome.affected).sum := by
  have hcalls : (numberedUsers.calls Operation.renameTwo .twoThenThree).map (·.sql) =
      ["UPDATE \x22users\x22 SET \x22nick\x22 = %1$s WHERE \x22user_id\x22 = %2$d",
        "UPDATE \x22users\x22 SET \x22nick\x22 = %1$s WHERE \x22user_id\x22 = %1$s"] := by
    decide +kernel
  have hupdate : (numberedUsers.updater.update (Dict.ofList [("nick", .text "7")] : Record)
      (some (.inList (.bare "id") [.int 9, .int 7])) [] none .twoThenThree).1 = .ok 5 := by
    apply eq_ok_of_toOption
    decide +kernel
  have hperform : (numberedUsers.perform Operation.renameTwo .twoThenThree).1 = .ok (.affected 5) :=
    congrArg (Answer.affected <$> ·) hupdate
  have hids : Condition.identifiers (.bare "id") (.inList (.bare "id") [.int 9, .int 7]) = .ok [9, 7] := by
    apply eq_ok_of_toOption
    decide +kernel
  obtain ⟨call, rest, hcall, hsql, hrest⟩ := List.map_eq_cons_iff.1 hcalls
  obtain ⟨call', rfl, hsql'⟩ := List.map_eq_singleton_iff.1 hrest
  obtain ⟨cond, row, ids, outcomes, hcondition, _, hresolve, _, hupdates, hlength, hreports, hsum⟩ :=
    updates_by_identifier Config.numberedUsers _ (.bare "id") _ _ _ [] none .twoThenThree hperform
  cases hcondition
  cases Except.ok.inj (hids.symm.trans hresolve)
  replace hupdates : List.Forall₂ (fun id call => Call.UpdatesById "users" "user_id" row id call) [9, 7]
    (numberedUsers.calls Operation.renameTwo .twoThenThree) := hupdates
  rw [hcall] at hupdates
  obtain ⟨hfirst, hsecond⟩ := List.forall₂_cons.1 hupdates
  have hreported := hreports.eq_take Recorder.outcomes_twoThenThree (Nat.le_of_eq hlength)
  rw [hlength] at hreported
  exact ⟨call, call', hcall, hsql, hsql', ⟨row, hfirst, (List.forall₂_cons.1 hsecond).1⟩, hperform, outcomes, hreports,
    congrArg (List.map Outcome.affected) hreported, hsum⟩

/-- The n-th of the slices that a removal cuts its identifiers into. -/
def slice (ids : List Int64) (k : Nat) : List Int64 := (ids.drop (idsPerStatement * k)).take idsPerStatement

theorem eq_slice {ids piece : List Int64} {k : Nat} (h : (chunksOfSucc (idsPerStatement - 1) ids)[k]? = some piece) :
    piece = slice ids k := chunksOfSucc_getElem? h

/-- **What a removal by identifiers has done if it succeeds.** There is a call for every thousand of the identifiers
that its condition comes to, and the answer is the sum of what the store has reported of these calls. -/
theorem removals_by_identifier (c : Config) (updating : Targeting) (identifier : FieldRef)
    (resolve : Condition → Except Failure (List Int64)) (condition : Option Condition) (ordering : List OrderBy)
    (limit offset : Option Nat) (store : Recorder) {affected : Nat}
    (h : ((assemble c updating (.byIdentifier identifier resolve)).perform
      (.delete condition ordering limit offset : Operation σ) store).1 = .ok (.affected affected)) :
    ∃ cond ids outcomes, condition = some cond ∧ resolve cond = .ok ids ∧
      ((assemble c updating (.byIdentifier identifier resolve)).calls
        (.delete condition ordering limit offset : Operation σ) store).length = (ids.length + 999) / 1000 ∧
      (∀ (k : Nat) (call : Call), ((assemble c updating (.byIdentifier identifier resolve)).calls
          (.delete condition ordering limit offset : Operation σ) store)[k]? = some call →
        call.RemovesByIds c.table.name (c.fields.identifierColumn identifier) (slice ids k) ∧
          call.args.length ≤ 1000) ∧
      (List.range ((ids.length + 999) / 1000)).flatMap (slice ids) = ids ∧
      outcomes.length = (ids.length + 999) / 1000 ∧ store.Reports outcomes ∧
      affected = (outcomes.map Outcome.affected).sum := by
  obtain ⟨drafts, outcomes, hdrafts, haffected, hran⟩ := ran_of_affected h
  obtain ⟨targets, hprepare, hdrafts'⟩ := map_eq_ok.1 hdrafts
  obtain ⟨cond, ids, hcondition, hids, htargets⟩ := Deleter.prepare_byIdentifier rfl hprepare
  rw [htargets, List.map_map] at hdrafts'
  have hcount : drafts.length = (ids.length + 999) / 1000 := by
    rw [← hdrafts', List.length_map]
    exact length_chunksOfSucc (idsPerStatement - 1) ids
  obtain ⟨hlength, hreports⟩ := hran.reported
  have hcalls := hran.madeOf rfl hdrafts
  rw [← hdrafts', List.forall₂_map_left_iff] at hcalls
  refine ⟨cond, ids, outcomes, hcondition, hids, ?_, ?_, ?_, ?_, hreports, haffected⟩
  · rw [hran.length_calls, hcount]
  · intro k call hcall
    have hk : k < (chunksOfSucc (idsPerStatement - 1) ids).length :=
      hcalls.length_eq ▸ (List.getElem?_eq_some_iff.1 hcall).1
    have hpiece := List.getElem?_eq_getElem hk
    obtain ⟨m, ts, hmade⟩ := getElem?_related hcalls hpiece hcall
    have hremoves := hmade.removesByIds (ne_nil_of_mem_chunksOfSucc (List.getElem_mem hk))
    have hslice : (chunksOfSucc (idsPerStatement - 1) ids)[k] = slice ids k := eq_slice hpiece
    rw [hslice] at hremoves
    refine ⟨hremoves, ?_⟩
    have hkept : (slice ids k).eraseDups.length ≤ (slice ids k).length := (eraseDups_sublist _).length_le
    have hlength : (slice ids k).length ≤ 1000 := by
      rw [slice, List.length_take]
      exact Nat.min_le_left _ _
    rw [hremoves.1, List.length_map]
    omega
  · have hslices : (List.range ((ids.length + 999) / 1000)).map (slice ids) = chunksOfSucc (idsPerStatement - 1) ids :=
      (chunksOfSucc_eq (idsPerStatement - 1) ids).symm
    rw [List.flatMap_def, hslices, flatten_chunksOfSucc]
  · rw [hlength, hcount]

/-- Two users are removed, one of which is named twice: its identifier is an argument once. The store reports two rows,
and so does the answer. -/
theorem removeTwo_by_identifier : ∃ call : Call,
    numberedUsers.calls Operation.removeTwo .twoThenThree = [call] ∧
      call.sql = "DELETE FROM \x22users\x22 WHERE \x22user_id\x22 IN (%1$d, %2$d, %1$d)" ∧
      call.RemovesByIds "users" "user_id" [5, 7, 5] ∧
      (numberedUsers.perform Operation.removeTwo .twoThenThree).1 = .ok (.affected 2) ∧
      ∃ outcomes, Recorder.twoThenThree.Reports outcomes ∧ outcomes.map Outcome.affected = [2] ∧
        2 = (outcomes.map Outcome.affected).sum := by
  have hcalls : (numberedUsers.calls Operation.removeTwo .twoThenThree).map (·.sql) =
      ["DELETE FROM \x22users\x22 WHERE \x22user_id\x22 IN (%1$d, %2$d, %1$d)"] := by
    decide +kernel
  have hdelete : (numberedUsers.deleter.delete (some (.inList (.bare "id") [.int 5, .int 7, .int 5])) [] none none
      .twoThenThree).1 = .ok 2 := by
    apply eq_ok_of_toOption
    decide +kernel
  have hperform : (numberedUsers.perform Operation.removeTwo .twoThenThree).1 = .ok (.affected 2) :=
    congrArg (Answer.affected <$> ·) hdelete
  have hids : Condition.identifiers (.bare "id") (.inList (.bare "id") [.int 5, .int 7, .int 5]) = .ok [5, 7, 5] := by
    apply eq_ok_of_toOption
    decide +kernel
  obtain ⟨call, hcall, hsql⟩ := List.map_eq_singleton_iff.1 hcalls
  obtain ⟨cond, ids, outcomes, hcondition, hresolve, _, hremoves, _, hlength, hreports, hsum⟩ :=
    removals_by_identifier Config.numberedUsers _ (.bare "id") _ _ [] none none .twoThenThree hperform
  cases hcondition
  cases Except.ok.inj (hids.symm.trans hresolve)
  have hfirst : (numberedUsers.calls Operation.removeTwo .twoThenThree)[0]? = some call := by rw [hcall]; rfl
  have hone : outcomes.length = 1 := hlength
  have hreported := hreports.eq_take Recorder.outcomes_twoThenThree (by rw [hone]; decide)
  rw [hone] at hreported
  exact ⟨call, hcall, hsql, (hremoves 0 call hfirst).1, hperform, outcomes, hreports,
    congrArg (List.map Outcome.affected) hreported, hsum⟩

end Resource

end BoundSql
