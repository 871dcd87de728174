import BoundSql.Proofs.Condition.Identifiers
import BoundSql.Proofs.Resource.ByIdentifier

/-!
# Rows that are updated again

An update by identifiers makes a call every time its condition comes to an identifier (`Resource.updatesOf_calls`). So
no row is updated twice if no identifier comes twice, and that is so for every range and every disjunction. An equality
or a membership that names an identifier twice has its rows updated twice, and counted twice
(`Resource.updates_once_each`, `Resource.renameSame_updates_again`).
-/

namespace BoundSql

open Sql (command?)

/-! ## What a call updates -/

/-- Canonical text of the identifier whose rows a call updates, read back from its text and its arguments. -/
def Call.updatedText? (call : Call) : Option String :=
  match command? call.sql with
  | some (.update _ _ (some (.compare (.sign .equal) (.column _) e))) => e.text? call.args
  | _ => none

theorem Call.UpdatesById.updatedText?_eq {table column : String} {row : Row} {id : Int64} {call : Call}
    (h : call.UpdatesById table column row id) : call.updatedText? = some (Value.integerText id) := by
  obtain ⟨assignments, token, hcommand, _, hstands⟩ := h
  have hstores : Sql.Expr.Stores call.args (.int id) (.placeholder token) := ⟨token, rfl, hstands⟩
  rw [updatedText?, hcommand]
  exact hstores.text?_eq

/-- Count of the calls that update the rows with an identifier. -/
def updatesOf (calls : List Call) (id : Int64) : Nat :=
  calls.countP fun call => call.updatedText? = some (Value.integerText id)

/-- Calls that update the rows with one of some identifiers each. -/
theorem updatesOf_eq_count {calls : List Call} {ids : List Int64}
    (h : calls.map Call.updatedText? = ids.map fun id => some (Value.integerText id)) (id : Int64) :
    updatesOf calls id = ids.count id := by
  have hcalls : updatesOf calls id =
      (calls.map Call.updatedText?).countP fun text => text = some (Value.integerText id) := by
    rw [List.countP_map]
    rfl
  rw [hcalls, h, List.countP_map]
  refine List.countP_congr fun id' _ => ?_
  rw [Function.comp_apply, decide_eq_true_eq, beq_iff_eq, Option.some.injEq]
  exact Value.integerText_injective.eq_iff

/-! ## Stores that count single rows -/

/-- A store that reports one affected row for every change. -/
def Recorder.CountsSingly (store : Recorder) : Prop := ∀ o, .ok o ∈ store.outcomes → o.affected = 1

theorem Recorder.Reports.affected_eq {store : Recorder} {outcomes : List Outcome} (h : store.Reports outcomes)
    (hstore : store.CountsSingly) : ∀ o ∈ outcomes, o.affected = 1 := by
  intro o ho
  obtain ⟨k, hk⟩ := List.mem_iff_getElem?.1 ho
  have hanswer := h k o hk
  cases hscript : store.outcomes.drop k with
  | nil =>
    rw [hscript] at hanswer
    cases hanswer
    rfl
  | cons answered rest =>
    rw [hscript] at hanswer
    cases answered with
    | error message => cases hanswer
    | ok o' =>
      cases hanswer
      exact hstore o (List.mem_of_mem_drop (hscript ▸ List.mem_cons_self))

theorem Outcome.sum_affected_eq_length {outcomes : List Outcome} (h : ∀ o ∈ outcomes, o.affected = 1) :
    (outcomes.map Outcome.affected).sum = outcomes.length := by
  have hones : outcomes.map Outcome.affected = List.replicate outcomes.length 1 :=
    List.map_eq_replicate_iff.2 h
  rw [hones, List.sum_replicate_nat, Nat.mul_one]

/-- Elements are all distinct iff there are as many without their repetitions. -/
theorem length_eq_eraseDups_iff {α : Type} [BEq α] [LawfulBEq α] {xs : List α} :
    xs.length = xs.eraseDups.length ↔ xs.Nodup := by
  constructor
  · intro h
    rw [← (eraseDups_sublist xs).eq_of_length h.symm]
    exact nodup_eraseDups xs
  · intro h
    rw [eraseDups_of_nodup h]

/-! ## Updates of users -/

/-- A new nickname. -/
def Record.bob : Record := Dict.ofList [("nick", .text "bob")]

/-- Two ways to name users, which have one user in common. -/
def Condition.overlap : Condition :=
  .disj [.inList (.bare "id") [.int 7, .int 7], .between (.bare "id") (.int 6) (.int 8)]

/-- A new nickname for the users that either of two ways names. -/
def Operation.renameOverlap : Operation Record := .update Record.bob (some Condition.overlap) [] none

/-- A new nickname for one user, who is named twice. -/
def Operation.renameSame : Operation Record :=
  .update Record.bob (some (.inList (.bare "id") [.int 7, .int 7])) [] none

/-! ## Updates by identifiers -/

variable {σ : Type} [FieldSource σ]

namespace Resource

section

variable {c : Config} {deleting : Targeting} {identifier : FieldRef} {resolve : Condition → Except Failure (List Int64)}
  {changes : σ} {cond : Condition} {ordering : List OrderBy} {limit : Option Nat} {store : Recorder}

/-- The calls of an update by identifiers update the rows with the identifiers that come first. -/
theorem map_updatedText? {ids : List Int64} (hids : resolve cond = .ok ids) :
    ((assemble c (.byIdentifier identifier resolve) deleting).calls
        (.update changes (some cond) ordering limit) store).map Call.updatedText? =
      (ids.take ((assemble c (.byIdentifier identifier resolve) deleting).calls
        (.update changes (some cond) ordering limit) store).length).map fun id => some (Value.integerText id) := by
  refine List.ext_getElem? fun k => ?_
  rw [List.getElem?_map, List.getElem?_map, List.getElem?_take]
  cases hcall : ((assemble c (.byIdentifier identifier resolve) deleting).calls
      (.update changes (some cond) ordering limit) store)[k]? with
  | none =>
    rw [if_neg (Nat.not_lt.2 (List.getElem?_eq_none_iff.1 hcall))]
    rfl
  | some call =>
    obtain ⟨drafts, _, _, hdrafts, _⟩ := calls_getElem? hcall
    obtain ⟨_, ids', row, hcondition, hids', _, rfl⟩ := drafts_update_byIdentifier hdrafts
    cases hcondition
    cases hids.symm.trans hids'
    obtain ⟨_, _, m, ts, hdraft, _, hmade⟩ := exists_madeOf_getElem? hdrafts hcall
    rw [List.getElem?_map, Option.map_eq_some_iff] at hdraft
    obtain ⟨id, hid, rfl⟩ := hdraft
    rw [if_pos (List.getElem?_eq_some_iff.1 hcall).1, hid]
    exact congrArg some hmade.updatesById.updatedText?_eq

/-- **Rows are updated as often as the condition comes to their identifier**, up to where the update has stopped. -/
theorem updatesOf_calls {ids : List Int64} (hids : resolve cond = .ok ids) (id : Int64) :
    updatesOf ((assemble c (.byIdentifier identifier resolve) deleting).calls
        (.update changes (some cond) ordering limit) store) id =
      (ids.take ((assemble c (.byIdentifier identifier resolve) deleting).calls
        (.update changes (some cond) ordering limit) store).length).count id :=
  updatesOf_eq_count (map_updatedText? hids) id

/-- An update whose identifiers cannot be found makes no call. -/
theorem calls_of_unresolved {f : Failure} (hids : resolve cond = .error f) :
    (assemble c (.byIdentifier identifier resolve) deleting).calls
      (.update changes (some cond) ordering limit) store = [] := by
  cases hdrafts : (assemble c (.byIdentifier identifier resolve) deleting).drafts
      (.update changes (some cond) ordering limit) with
  | error f' =>
    rw [calls_eq, requests, hdrafts]
    rfl
  | ok drafts =>
    obtain ⟨_, ids, _, hcondition, hids', _⟩ := drafts_update_byIdentifier hdrafts
    cases hcondition
    cases hids.symm.trans hids'

/-- An update by identifiers that succeeds has made a call every time an identifier comes, and has added up what the
store has reported of these. -/
theorem calls_of_affected {ids : List Int64} (hids : resolve cond = .ok ids) {affected : Nat}
    (h : ((assemble c (.byIdentifier identifier resolve) deleting).perform
      (.update changes (some cond) ordering limit) store).1 = .ok (.affected affected)) :
    (∀ id, updatesOf ((assemble c (.byIdentifier identifier resolve) deleting).calls
      (.update changes (some cond) ordering limit) store) id = ids.count id) ∧
      (store.CountsSingly → affected = ids.length) := by
  obtain ⟨drafts, outcomes, hdrafts, rfl, hran⟩ := ran_of_affected h
  obtain ⟨_, ids', _, hcondition, hids', _, rfl⟩ := drafts_update_byIdentifier hdrafts
  cases hcondition
  cases hids.symm.trans hids'
  obtain ⟨hlength, hreports⟩ := hran.reported
  refine ⟨fun id => ?_, fun hstore => ?_⟩
  · rw [updatesOf_calls hids, hran.length_calls, List.length_map, List.take_length]
  · rw [Outcome.sum_affected_eq_length (hreports.affected_eq hstore), hlength, List.length_map]

end

/-- **How often an update by identifiers changes the same rows.** It makes no call if its condition has no identifiers.
Otherwise it makes at most one for each of them if none comes twice, and only an equality or a membership names one
twice. If it succeeds on a store that counts single rows, it has made a call every time an identifier comes, and the
answer is the count of different identifiers iff none comes twice. -/
theorem updates_once_each (c : Config) (deleting : Targeting) (identifier : FieldRef) (changes : σ) (cond : Condition)
    (ordering : List OrderBy) (limit : Option Nat) (store : Recorder) :
    (∀ f, cond.identifiers identifier = .error f →
      (assemble c (.ofIdentifier identifier) deleting).calls (.update changes (some cond) ordering limit) store = []) ∧
    ∀ ids, cond.identifiers identifier = .ok ids →
      (ids.Nodup ∨ cond.operator = .equalTo ∨ cond.operator = .in) ∧
      (ids.Nodup → ∀ id, updatesOf ((assemble c (.ofIdentifier identifier) deleting).calls
        (.update changes (some cond) ordering limit) store) id ≤ 1) ∧
      ∀ affected, ((assemble c (.ofIdentifier identifier) deleting).perform
          (.update changes (some cond) ordering limit) store).1 = .ok (.affected affected) → store.CountsSingly →
        (∀ id, updatesOf ((assemble c (.ofIdentifier identifier) deleting).calls
          (.update changes (some cond) ordering limit) store) id = ids.count id) ∧
        (affected = ids.eraseDups.length ↔ ids.Nodup) := by
  refine ⟨fun f hids => calls_of_unresolved hids, fun ids hids => ⟨Condition.nodup_identifiers hids, ?_, ?_⟩⟩
  · intro hnodup id
    rw [Targeting.ofIdentifier, updatesOf_calls hids]
    exact List.nodup_iff_count_le_one.1 ((List.take_sublist _ ids).nodup hnodup) id
  · intro affected haffected hstore
    obtain ⟨hcalls, hcounted⟩ := calls_of_affected hids haffected
    refine ⟨hcalls, ?_⟩
    rw [hcounted hstore]
    exact length_eq_eraseDups_iff

/-- A range and a membership that name the same user: that user is updated once. -/
theorem renameOverlap_updates_once :
    Condition.identifiers (.bare "id") Condition.overlap = .ok [7, 6, 8] ∧
      (numberedUsers.perform Operation.renameOverlap .empty).1 = .ok (.affected 3) ∧
      Recorder.empty.CountsSingly ∧
      (∀ id, updatesOf (numberedUsers.calls Operation.renameOverlap .empty) id ≤ 1) ∧
      (∀ id, updatesOf (numberedUsers.calls Operation.renameOverlap .empty) id = [7, 6, 8].count id) ∧
      3 = ([7, 6, 8] : List Int64).eraseDups.length := by
  have hbranches : Condition.branchIdentifiers (.bare "id") Condition.overlap.terms = .ok [7, 7, 6, 7, 8] := by
    apply eq_ok_of_toOption
    decide +kernel
  have hids : Condition.identifiers (.bare "id") Condition.overlap = .ok [7, 6, 8] := by
    show firstOccurrences <$> Condition.branchIdentifiers (.bare "id") Condition.overlap.terms = _
    rw [hbranches]
    refine congrArg Except.ok ?_
    rw [firstOccurrences_eq]
    decide +kernel
  have htargets : numberedUsers.updater.targets ⟨Condition.overlap, [], none, none⟩ =
      .ok ([7, 6, 8].map fun id => Target.all (.equalTo (.bare "id") (.int id))) := by
    show (do let ids ← Condition.identifiers (.bare "id") Condition.overlap
             if ids.isEmpty then .error .noIdentifier else return ids.map _) = _
    rw [hids]
    rfl
  have hupdate : (numberedUsers.updater.update Record.bob (some Condition.overlap) [] none .empty).1 = .ok 3 := by
    apply eq_ok_of_toOption
    rw [Updater.update, Updater.prepare]
    dsimp only
    rw [htargets]
    decide +kernel
  have hperform : (numberedUsers.perform Operation.renameOverlap .empty).1 = .ok (.affected 3) :=
    congrArg (Answer.affected <$> ·) hupdate
  have hstore : Recorder.empty.CountsSingly := fun _ ho => absurd ho List.not_mem_nil
  have hnodup : ([7, 6, 8] : List Int64).Nodup := by decide
  obtain ⟨_, honce, hdone⟩ := (updates_once_each Config.numberedUsers (.ofIdentifier (.bare "id")) (.bare "id")
    Record.bob Condition.overlap [] none .empty).2 _ hids
  obtain ⟨hcalls, hcounted⟩ := hdone 3 hperform hstore
  exact ⟨hids, hperform, hstore, honce hnodup, hcalls, hcounted.2 hnodup⟩

/-- A user who is named twice is updated twice, and counted twice. -/
theorem renameSame_updates_again :
    Condition.identifiers (.bare "id") (.inList (.bare "id") [.int 7, .int 7]) = .ok [7, 7] ∧
      Recorder.empty.CountsSingly ∧ updatesOf (numberedUsers.calls Operation.renameSame .empty) 7 = 2 ∧
      (numberedUsers.perform Operation.renameSame .empty).1 = .ok (.affected 2) ∧
      ([7, 7] : List Int64).eraseDups.length = 1 := by
  have hids : Condition.identifiers (.bare "id") (.inList (.bare "id") [.int 7, .int 7]) = .ok [7, 7] := by
    apply eq_ok_of_toOption
    decide +kernel
  have hupdate : (numberedUsers.updater.update Record.bob (some (.inList (.bare "id") [.int 7, .int 7])) [] none
      .empty).1 = .ok 2 := by
    apply eq_ok_of_toOption
    decide +kernel
  have hperform : (numberedUsers.perform Operation.renameSame .empty).1 = .ok (.affected 2) :=
    congrArg (Answer.affected <$> ·) hupdate
  have hstore : Recorder.empty.CountsSingly := fun _ ho => absurd ho List.not_mem_nil
  have hcalls : updatesOf (numberedUsers.calls Operation.renameSame .empty) 7 = ([7, 7] : List Int64).count 7 :=
    (calls_of_affected hids hperform).1 7
  exact ⟨hids, hstore, hcalls.trans (by decide), hperform, by decide⟩

end Resource

end BoundSql
