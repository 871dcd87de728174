import BoundSql.Proofs.Resource.ByIdentifier
import BoundSql.Proofs.Resource.Direct

/-!
# Removals with a limit

A direct removal is one statement at most, and the limit stands in its text: it is a limit on the rows that the text
selects for removal, so no more rows are removed, whatever the condition, the order and the offset are.

A removal by identifiers has no use for a limit, nor for an order or an offset (`Resource.perform_delete_ignores`). Its
statements list the identifiers that its condition comes to, and all of them if it succeeds, also if these are more
than the limit allows (`Resource.removals_limited`).
-/

namespace BoundSql

open Sql (Scope changed? command? namePath)

/-- Count of the values that the condition of a removal lists. -/
def Call.listed (call : Call) : Nat :=
  match command? call.sql with
  | some (.delete _ (some (.among _ items))) => items.length
  | _ => 0

theorem Call.RemovesByIds.listed_eq {table column : String} {ids : List Int64} {call : Call}
    (h : call.RemovesByIds table column ids) : call.listed = ids.length := by
  obtain ⟨_, tokens, hcommand, hleads⟩ := h
  rw [Call.listed, hcommand]
  dsimp only
  rw [List.length_map, hleads.length_eq]

/-! ## Pieces -/

/-- The pieces that come first hold no more than all of them. -/
theorem sum_length_take_le {α : Type} (pieces : List (List α)) (k : Nat) :
    ((pieces.take k).map List.length).sum ≤ pieces.flatten.length := by
  have hpieces : (pieces.take k).flatten ++ (pieces.drop k).flatten = pieces.flatten := by
    rw [← List.flatten_append, List.take_append_drop]
  rw [← List.length_flatten, ← hpieces, List.length_append]
  exact Nat.le_add_right _ _

/-! ## Removals -/

variable {σ : Type} [FieldSource σ]

namespace Resource

variable {c : Config} {updating : Targeting} {store : Recorder} {call : Call} {condition : Option Condition}
  {ordering : List OrderBy} {limit offset : Option Nat}

/-- A removal by identifiers is what it is without an order, a limit and an offset. -/
theorem perform_delete_ignores (c : Config) (updating : Targeting) (identifier : FieldRef)
    (resolve : Condition → Except Failure (List Int64)) (condition : Option Condition) (ordering : List OrderBy)
    (limit offset : Option Nat) (store : Recorder) :
    (assemble c updating (.byIdentifier identifier resolve)).perform
        (.delete condition ordering limit offset : Operation σ) store =
      (assemble c updating (.byIdentifier identifier resolve)).perform
        (.delete condition [] none none : Operation σ) store := by
  cases condition with
  | none => rfl
  | some cond => rfl

/-- The n-th call of a removal by identifiers lists the n-th piece of them. -/
theorem listed_getElem? {identifier : FieldRef} {resolve : Condition → Except Failure (List Int64)} {cond : Condition}
    {ids : List Int64} (hids : resolve cond = .ok ids) {k : Nat}
    (h : ((assemble c updating (.byIdentifier identifier resolve)).calls
      (.delete (some cond) ordering limit offset : Operation σ) store)[k]? = some call) :
    ∃ piece, (chunksOfSucc (idsPerStatement - 1) ids)[k]? = some piece ∧ call.listed = piece.length := by
  obtain ⟨drafts, _, _, hdrafts, _⟩ := calls_getElem? h
  obtain ⟨_, ids', hcondition, hids', rfl⟩ := drafts_delete_byIdentifier hdrafts
  cases hcondition
  cases hids.symm.trans hids'
  obtain ⟨_, _, m, ts, hdraft, _, hmade⟩ := exists_madeOf_getElem? hdrafts h
  rw [List.getElem?_map, Option.map_eq_some_iff] at hdraft
  obtain ⟨piece, hpiece, rfl⟩ := hdraft
  have hremoves := hmade.removesByIds (ne_nil_of_mem_chunksOfSucc (List.mem_of_getElem? hpiece))
  exact ⟨piece, hpiece, hremoves.listed_eq⟩

/-- The calls of a removal by identifiers list the pieces that come first. -/
theorem map_listed {identifier : FieldRef} {resolve : Condition → Except Failure (List Int64)} {cond : Condition}
    {ids : List Int64} (hids : resolve cond = .ok ids) :
    ((assemble c updating (.byIdentifier identifier resolve)).calls
      (.delete (some cond) ordering limit offset : Operation σ) store).map Call.listed =
      ((chunksOfSucc (idsPerStatement - 1) ids).take ((assemble c updating (.byIdentifier identifier resolve)).calls
        (.delete (some cond) ordering limit offset : Operation σ) store).length).map List.length := by
  refine List.ext_getElem? fun k => ?_
  rw [List.getElem?_map, List.getElem?_map, List.getElem?_take]
  cases hcall : ((assemble c updating (.byIdentifier identifier resolve)).calls
      (.delete (some cond) ordering limit offset : Operation σ) store)[k]? with
  | none =>
    rw [if_neg (Nat.not_lt.2 (List.getElem?_eq_none_iff.1 hcall))]
    rfl
  | some call =>
    obtain ⟨piece, hpiece, hlisted⟩ := listed_getElem? hids hcall
    rw [if_pos (List.getElem?_eq_some_iff.1 hcall).1, hpiece]
    exact congrArg some hlisted

end Resource

/-- The removal of two users called Ann, those with the first nicknames. -/
def Operation.removeAnns : Operation Record :=
  .delete (some (.equalTo (.bare "name") (.text "Ann"))) [⟨"nick", .ascending⟩] (some 2) none

/-- The removal of one user, though two are named. -/
def Operation.removeOne : Operation Record :=
  .delete (some (.inList (.bare "id") [.int 5, .int 7])) [] (some 1) none

namespace Resource

/-- **What a limit does to a removal.** A direct removal makes one call at most, whose text selects the rows that are
removed, and no more of them than the limit. A removal by identifiers makes the calls that it makes without a limit:
they list no more than the identifiers that its condition comes to, and all of these if it succeeds. -/
theorem removals_limited (c : Config) (updating deleting : Targeting) (condition : Option Condition)
    (ordering : List OrderBy) (limit : Nat) (offset : Option Nat) (store : Recorder) :
    (deleting = .direct →
      ((assemble c updating deleting).calls
        (.delete condition ordering (some limit) offset : Operation σ) store).length ≤ 1 ∧
      ∀ call ∈ (assemble c updating deleting).calls
          (.delete condition ordering (some limit) offset : Operation σ) store,
        ∃ scope : Scope, changed? call.sql = some (namePath c.table.name, scope) ∧ scope.limit = some limit ∧
          ∀ (ρ : Type) (satisfies : ρ → Bool) (table : Sql.NumberedRows ρ) (picked : List (Int × ρ)),
            scope.Picks satisfies table picked → picked.length ≤ limit) ∧
    ∀ identifier resolve, deleting = .byIdentifier identifier resolve →
      (assemble c updating deleting).perform (.delete condition ordering (some limit) offset : Operation σ) store =
        (assemble c updating deleting).perform (.delete condition [] none none : Operation σ) store ∧
      ∀ cond ids, condition = some cond → resolve cond = .ok ids →
        (((assemble c updating deleting).calls
          (.delete condition ordering (some limit) offset : Operation σ) store).map Call.listed).sum ≤ ids.length ∧
        ∀ affected, ((assemble c updating deleting).perform
            (.delete condition ordering (some limit) offset : Operation σ) store).1 = .ok (.affected affected) →
          (((assemble c updating deleting).calls
            (.delete condition ordering (some limit) offset : Operation σ) store).map Call.listed).sum =
              ids.length := by
  refine ⟨?_, ?_⟩
  · rintro rfl
    refine ⟨?_, fun call hcall => ?_⟩
    · cases hdrafts : (assemble c updating .direct).drafts
          (.delete condition ordering (some limit) offset : Operation σ) with
      | error f => simp [calls_eq, requests, hdrafts, Recorder.made]
      | ok drafts =>
        obtain ⟨cond, _, rfl⟩ := drafts_delete_direct hdrafts
        exact length_calls_le_drafts hdrafts store
    · obtain ⟨_, _, _, _, hchanges, _⟩ := changesTarget_of_delete hcall
      obtain ⟨criteria, hread⟩ := hchanges.changed
      exact ⟨_, hread, rfl, fun ρ satisfies table picked hpicks => hpicks.length_le rfl⟩
  · rintro identifier resolve rfl
    refine ⟨perform_delete_ignores c updating identifier resolve condition ordering (some limit) offset store, ?_⟩
    rintro cond ids rfl hids
    rw [map_listed hids]
    have hflatten := flatten_chunksOfSucc (idsPerStatement - 1) ids
    refine ⟨?_, fun affected haffected => ?_⟩
    · have hle := sum_length_take_le (chunksOfSucc (idsPerStatement - 1) ids)
        ((assemble c updating (.byIdentifier identifier resolve)).calls
          (.delete (some cond) ordering (some limit) offset : Operation σ) store).length
      rwa [hflatten] at hle
    · obtain ⟨drafts, outcomes, hdrafts, _, hran⟩ := ran_of_affected haffected
      obtain ⟨_, ids', hcondition, hids', rfl⟩ := drafts_delete_byIdentifier hdrafts
      cases hcondition
      cases hids.symm.trans hids'
      rw [hran.length_calls, List.length_map, List.take_length, ← List.length_flatten, hflatten]

/-- No more than two users called Ann are removed. -/
theorem removeAnns_limited : ∃ (call : Call) (scope : Scope),
    (assemble Config.users .direct .direct).calls Operation.removeAnns .empty = [call] ∧
      call.sql = "DELETE FROM \x22users\x22 WHERE rowid IN (SELECT rowid FROM \x22users\x22 " ++
        "WHERE \x22full_name\x22 = %1$s ORDER BY \x22nick\x22 ASC LIMIT 2)" ∧
      changed? call.sql = some (["users"], scope) ∧
      ∀ (satisfies : String → Bool) (table : Sql.NumberedRows String) (picked : List (Int × String)),
        scope.Picks satisfies table picked → picked.length ≤ 2 := by
  have hcalls : ((assemble Config.users .direct .direct).calls Operation.removeAnns .empty).map (·.sql) =
      ["DELETE FROM \x22users\x22 WHERE rowid IN (SELECT rowid FROM \x22users\x22 " ++
        "WHERE \x22full_name\x22 = %1$s ORDER BY \x22nick\x22 ASC LIMIT 2)"] := by
    decide +kernel
  obtain ⟨call, hcall, hsql⟩ := List.map_eq_singleton_iff.1 hcalls
  have hlimited : ((assemble Config.users .direct .direct).calls Operation.removeAnns .empty).length ≤ 1 ∧ _ :=
    (removals_limited Config.users .direct .direct _ _ 2 none .empty).1 rfl
  obtain ⟨scope, hscope, _, hpicks⟩ := hlimited.2 call (hcall ▸ List.mem_singleton_self call)
  exact ⟨call, scope, hcall, hsql, hscope, fun satisfies table picked => hpicks String satisfies table picked⟩

/-- Both users are removed, and the text has no limit. -/
theorem removeOne_removes_two : ∃ call, numberedUsers.calls Operation.removeOne .empty = [call] ∧
    call.sql = "DELETE FROM \x22users\x22 WHERE \x22user_id\x22 IN (%1$d, %2$d)" ∧ call.listed = 2 ∧
    ∃ scope, changed? call.sql = some (["users"], scope) ∧ scope.limit = none := by
  have hcalls : (numberedUsers.calls Operation.removeOne .empty).map (·.sql) =
      ["DELETE FROM \x22users\x22 WHERE \x22user_id\x22 IN (%1$d, %2$d)"] := by
    decide +kernel
  obtain ⟨call, hcall, hsql⟩ := List.map_eq_singleton_iff.1 hcalls
  refine ⟨call, hcall, hsql, ?_, ?_⟩
  · rw [Call.listed, hsql]
    decide +kernel
  · rw [hsql]
    exact ⟨⟨[.name "user_id", .keyword .in, .openParen, .placeholder "%1$d", .comma, .placeholder "%2$d", .closeParen],
      [], none, none⟩, by decide +kernel, rfl⟩

end Resource

end BoundSql
