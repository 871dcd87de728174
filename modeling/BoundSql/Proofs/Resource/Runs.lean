import BoundSql.Proofs.Resource.Placement
import BoundSql.Proofs.Sql.Command
import Mathlib.Algebra.GroupWithZero.Nat

/-!
# Runs that succeed

The n-th call of an operation is that of its n-th draft (`Resource.calls_getElem?`). If an operation that changes its
table succeeds, all of its drafts have been written and none of its calls was refused: there is a call for every draft,
in order, and the operation answers with what the store has reported of them (`Resource.ran_of_answer`): a count of
rows is the sum of the reported ones (`Resource.ran_of_affected`).
-/

namespace BoundSql

namespace Recorder

/-- What a store reports of its next changes, none of which it refuses: the answers of its script, one after the other,
and a single affected row where the script has ended. -/
def Reports (store : Recorder) (outcomes : List Outcome) : Prop :=
  ∀ k o, outcomes[k]? = some o → answer ⟨1, none⟩ (store.outcomes.drop k) = .ok o

/-- A store whose script goes on for long enough reports what stands there. -/
theorem Reports.eq_take {store : Recorder} {outcomes script : List Outcome} (h : store.Reports outcomes)
    (hscript : store.outcomes = script.map .ok) (hlength : outcomes.length ≤ script.length) :
    outcomes = script.take outcomes.length := by
  refine List.ext_getElem? fun k => ?_
  cases hk : outcomes[k]? with
  | none =>
    have hle := List.getElem?_eq_none_iff.1 hk
    rw [List.getElem?_take, if_neg (Nat.not_lt.2 hle)]
  | some o =>
    have hlt := (List.getElem?_eq_some_iff.1 hk).1
    have hscripted := Nat.lt_of_lt_of_le hlt hlength
    have hanswer := h k o hk
    rw [hscript, ← List.map_drop, List.drop_eq_getElem_cons hscripted] at hanswer
    rw [List.getElem?_take, if_pos hlt, List.getElem?_eq_getElem hscripted]
    exact congrArg some (Except.ok.inj hanswer).symm

theorem not_refused {o : Outcome} {script : List (Except String Outcome)} (h : answer ⟨1, none⟩ script = .ok o) :
    refused script = false := by
  rcases script with _ | ⟨_ | o', script⟩
  · rfl
  · cases h
  · rfl

/-- **A run that succeeds has made a call for every item**, and reports what the store answered. -/
theorem executeEach_eq_ok {α : Type} {prepare : α → Except Failure Request} {store : Recorder} {items : List α}
    {outcomes : List Outcome} (h : (executeEach prepare store items).1 = .ok outcomes) : ∃ requests,
    List.Forall₂ (fun item request => prepare item = .ok request) items requests ∧
      made .execute store.outcomes (items.map prepare) = requests.map (Request.call .execute) ∧
      outcomes.length = items.length ∧ store.Reports outcomes := by
  induction items generalizing store outcomes with
  | nil =>
    cases h
    exact ⟨[], .nil, rfl, rfl, nofun⟩
  | cons item items ih =>
    unfold executeEach at h
    cases hrequest : prepare item with
    | error f =>
      rw [hrequest] at h
      cases h
    | ok request =>
      simp only [hrequest, execute] at h
      cases hanswer : answer ⟨1, none⟩ store.outcomes with
      | error f =>
        rw [hanswer] at h
        cases h
      | ok o =>
        simp only [hanswer] at h
        obtain ⟨rest, hrest, rfl⟩ := map_eq_ok.1 h
        obtain ⟨requests, hrequests, hmade, hlength, hreports⟩ := ih hrest
        refine ⟨request :: requests, .cons hrequest hrequests, ?_, congrArg (· + 1) hlength, ?_⟩
        · rw [List.map_cons, hrequest, made, not_refused hanswer, if_neg Bool.false_ne_true, List.map_cons]
          exact congrArg (request.call .execute :: ·) hmade
        · intro k o' ho'
          cases k with
          | zero =>
            cases ho'
            exact hanswer
          | succ k =>
            have hnext := hreports k o' ho'
            rwa [← List.drop_one, List.drop_drop, Nat.add_comm 1 k] at hnext

end Recorder

/-- **The rows of several changes are counted by adding up what was reported of each.** -/
theorem Outcome.totalAffected_eq_sum (outcomes : List Outcome) :
    totalAffected outcomes = (outcomes.map Outcome.affected).sum := by
  induction outcomes with
  | nil => rfl
  | cons o outcomes ih =>
    rw [List.map_cons, List.sum_cons, ← ih]
    rfl

variable {σ : Type} [FieldSource σ]

namespace Resource

open Recorder (Request)

/-- The n-th call of an operation is that of its n-th draft. -/
theorem calls_getElem? {r : Resource} {op : Operation σ} {store : Recorder} {k : Nat} {call : Call}
    (h : (r.calls op store)[k]? = some call) : ∃ drafts draft request, r.drafts op = .ok drafts ∧
      drafts[k]? = some draft ∧ draft.request = .ok request ∧ call = request.call op.kind := by
  rw [calls_eq] at h
  obtain ⟨request, hrequest, hcall⟩ := Recorder.made_getElem? h
  unfold requests at hrequest
  cases hdrafts : r.drafts op with
  | error f =>
    rw [hdrafts] at hrequest
    cases hrequest
  | ok drafts =>
    simp only [hdrafts, List.getElem?_map, Option.map_eq_some_iff] at hrequest
    obtain ⟨draft, hdraft, hmade⟩ := hrequest
    exact ⟨drafts, draft, request, rfl, hdraft, hmade, hcall⟩

/-- There are no more calls than drafts. -/
theorem length_calls_le_drafts {r : Resource} {op : Operation σ} {drafts : List Draft} (h : r.drafts op = .ok drafts)
    (store : Recorder) : (r.calls op store).length ≤ drafts.length := by
  rw [calls_eq, requests, h]
  exact Nat.le_trans (Recorder.length_made_le_requests _ _ _) (List.length_map _).le

/-- The n-th call of an operation was made of its n-th draft, which can be written. -/
theorem exists_madeOf_getElem? {c : Config} {updating deleting : Targeting} {op : Operation σ} {store : Recorder}
    {drafts : List Draft} (hdrafts : (assemble c updating deleting).drafts op = .ok drafts) {k : Nat} {call : Call}
    (h : ((assemble c updating deleting).calls op store)[k]? = some call) : ∃ draft request m ts,
    drafts[k]? = some draft ∧ draft.request = .ok request ∧ MadeOf c updating deleting op call draft m ts := by
  obtain ⟨drafts', draft, request, hdrafts', hdraft, hrequest, rfl⟩ := calls_getElem? h
  cases hdrafts.symm.trans hdrafts'
  obtain ⟨m, ts, hmade⟩ := madeOf_of_request hdrafts (List.mem_of_getElem? hdraft) hrequest
  exact ⟨draft, request, m, ts, hdraft, hrequest, hmade⟩

/-- The statement of a call is read from the tokens of its draft. -/
theorem MadeOf.command {c : Config} {updating deleting : Targeting} {op : Operation σ} {call : Call} {draft : Draft}
    {m : Bindings} {ts : List Sql.Token} (h : MadeOf c updating deleting op call draft m ts) :
    Sql.command? call.sql = Sql.commandOf? ts := by
  rw [Sql.command?, h.scan, Option.bind_some]

/-- **A run of drafts that succeeds**: what the drafts are written as, and what the store answers to their calls. -/
structure Ran (drafts : List Draft) (store : Recorder) (calls : List Call) (outcomes : List Outcome) : Prop where
  written : ∃ requests, List.Forall₂ (fun draft request => Draft.request draft = .ok request) drafts requests ∧
    calls = requests.map (Request.call .execute)
  reported : outcomes.length = drafts.length ∧ store.Reports outcomes

/-- There is a call for every draft. -/
theorem Ran.length_calls {drafts : List Draft} {store : Recorder} {calls : List Call} {outcomes : List Outcome}
    (h : Ran drafts store calls outcomes) : calls.length = drafts.length := by
  obtain ⟨requests, hrequests, rfl⟩ := h.written
  rw [List.length_map, hrequests.length_eq]

/-- Every call of a run was made of its draft. -/
theorem Ran.madeOf {c : Config} {updating deleting : Targeting} {op : Operation σ} {drafts : List Draft}
    {store : Recorder} {calls : List Call} {outcomes : List Outcome} (h : Ran drafts store calls outcomes)
    (hkind : op.kind = .execute) (hdrafts : (assemble c updating deleting).drafts op = .ok drafts) :
    List.Forall₂ (fun draft call => ∃ m ts, MadeOf c updating deleting op call draft m ts) drafts calls := by
  obtain ⟨requests, hrequests, rfl⟩ := h.written
  rw [List.forall₂_map_right_iff, ← hkind]
  have hmem : ∀ draft ∈ drafts, draft ∈ drafts := fun _ hdraft => hdraft
  refine ((List.forall₂_and_left _ _).2 ⟨hmem, hrequests⟩).imp ?_
  rintro draft request ⟨hdraft, hrequest⟩
  exact madeOf_of_request hdrafts hdraft hrequest

/-- **An operation that changes its table and answers has run all of its drafts.** -/
theorem ran_of_answer {r : Resource} {op : Operation σ} (hop : op.kind = .execute) {store : Recorder} {a : Answer}
    (h : (r.perform op store).1 = .ok a) : ∃ drafts outcomes, r.drafts op = .ok drafts ∧ a = r.answerOf op outcomes ∧
      Ran drafts store (r.calls op store) outcomes := by
  rw [perform_eq_run r hop] at h
  rw [calls_eq, requests, hop]
  cases hdrafts : r.drafts op with
  | error f =>
    rw [hdrafts] at h
    cases h
  | ok drafts =>
    rw [hdrafts] at h
    obtain ⟨outcomes, houtcomes, rfl⟩ := map_eq_ok.1 h
    obtain ⟨requests, hrequests, hmade, hlength, hreports⟩ := Recorder.executeEach_eq_ok houtcomes
    exact ⟨drafts, outcomes, rfl, rfl, ⟨requests, hrequests, hmade⟩, hlength, hreports⟩

/-- An operation that answers with a count of rows has run all of its drafts, and has added up their rows. -/
theorem ran_of_affected {r : Resource} {op : Operation σ} {store : Recorder} {affected : Nat}
    (h : (r.perform op store).1 = .ok (.affected affected)) : ∃ drafts outcomes, r.drafts op = .ok drafts ∧
      affected = (outcomes.map Outcome.affected).sum ∧ Ran drafts store (r.calls op store) outcomes := by
  cases op with
  | select condition ordering limit offset =>
    obtain ⟨rows, _, hrows⟩ := map_eq_ok.1 h
    cases hrows
  | insert records =>
    obtain ⟨_, _, _, hanswer, _⟩ := ran_of_answer rfl h
    cases hanswer
  | _ =>
    obtain ⟨drafts, outcomes, hdrafts, hanswer, hran⟩ := ran_of_answer rfl h
    have haffected := (Answer.affected.inj hanswer).trans (Outcome.totalAffected_eq_sum outcomes)
    exact ⟨drafts, outcomes, hdrafts, haffected, hran⟩

/-- An insertion that answers has run all of its drafts. -/
theorem ran_of_insertion {r : Resource} {records : List σ} {store : Recorder} {report : Insertion}
    (h : (r.perform (.insert records) store).1 = .ok (.insertion report)) :
    ∃ drafts outcomes, r.drafts (.insert records) = .ok drafts ∧ report = r.inserter.report outcomes ∧
      Ran drafts store (r.calls (.insert records) store) outcomes := by
  obtain ⟨drafts, outcomes, hdrafts, hanswer, hran⟩ := ran_of_answer rfl h
  exact ⟨drafts, outcomes, hdrafts, Answer.insertion.inj hanswer, hran⟩

end Resource

end BoundSql
