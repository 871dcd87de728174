import BoundSql.Proofs.Sql.AnyStatement
import BoundSql.Resource.Model

/-!
# What a resource asks of its store

The four operations as one (`Resource.perform`), and what they come to before the store has answered: a list of drafts,
each a statement with the bindings of its values (`Resource.drafts`).

The calls of an operation are those of its drafts in order, up to the first draft that cannot be written and the first
call that the store refuses (`Resource.calls_eq`). So what is to be shown of a call is shown of a draft.
-/

namespace BoundSql

open Recorder (Request)

/-! ## Drafts -/

/-- A statement, and what binding its values has come to. -/
structure Draft where
  statement : Statement
  fields : FieldMap
  values : Bound

theorem Bound.toExcept_eq_ok {b : Bound} {values : Bindings} : b.toExcept = .ok values ↔ b = ⟨values, none⟩ := by
  rcases b with ⟨bindings, _ | f⟩
  · simp [Bound.toExcept]
  · simp [Bound.toExcept]

/-- Text and arguments of a draft whose values are all bound. -/
def Draft.request (d : Draft) : Except Failure Request := do
  let values ← d.values.toExcept
  Sql.request (fun ctx => d.statement.units ctx.writer ctx.fields) values d.fields

theorem Draft.request_eq_ok {d : Draft} {request : Request} (h : d.request = .ok request) :
    ∃ values ts, d.values = ⟨values, none⟩ ∧
      d.statement.units (Sql.Context.writer ⟨values, d.fields⟩) d.fields = .ok ts ∧
      request = ⟨Sql.render ts, values.args⟩ := by
  obtain ⟨values, hvalues, h⟩ := bind_eq_ok.1 h
  obtain ⟨ts, hts, rfl⟩ := map_eq_ok.1 h
  exact ⟨values, ts, Bound.toExcept_eq_ok.1 hvalues, hts, rfl⟩

/-- Draft of a selection. -/
def Selector.draft (s : Selector) (condition : Option Condition) (ordering : List OrderBy)
    (limit offset : Option Nat) : Draft where
  statement := .select ⟨s.fields, s.tables, s.joins, condition, ordering, limit, offset⟩
  fields := s.fields
  values := s.binder.bindConditions Bindings.empty (s.joins.map Join.condition ++ condition.toList)

/-- Draft of one insertion. -/
def Inserter.draft (i : Inserter) (rows : List Row) : Draft where
  statement := .insert ⟨i.table, firstOccurrences (rows.flatMap Dict.keys), rows⟩
  fields := i.fields
  values := i.binder.bindValues Bindings.empty (rows.flatMap Dict.values)

/-- Draft of one update; its condition is bound once its changes are. -/
def Updater.draft (u : Updater) (changes : Row) (target : Target) : Draft where
  statement := .update ⟨u.table, changes, some target.condition, target.ordering, target.limit⟩
  fields := u.fields
  values := match u.valueBinder.bindValues Bindings.empty changes.values with
    | ⟨values, none⟩ => u.conditionBinder.bindCondition values target.condition
    | ⟨values, some f⟩ => ⟨values, some f⟩

/-- Draft of one removal. -/
def Deleter.draft (d : Deleter) (target : Target) : Draft where
  statement := .delete ⟨d.table, some target.condition, target.ordering, target.limit, target.offset⟩
  fields := d.fields
  values := d.binder.bindCondition Bindings.empty target.condition

theorem Updater.draft_values (u : Updater) (changes : Row) (target : Target) :
    (u.draft changes target).values.toExcept =
      (u.valueBinder.bindValues Bindings.empty changes.values).toExcept >>= fun values =>
        (u.conditionBinder.bindCondition values target.condition).toExcept := by
  unfold draft
  rcases u.valueBinder.bindValues Bindings.empty changes.values with ⟨values, _ | f⟩
  · rfl
  · rfl

theorem Updater.draft_request (u : Updater) (changes : Row) (target : Target) :
    (u.draft changes target).request = u.request changes target := by
  rw [Draft.request, draft_values, bind_assoc]
  rfl

/-! ## Operations -/

/-- A call of a resource, whose field values come from sources of one type. -/
inductive Operation (σ : Type) where
  | select (condition : Option Condition) (ordering : List OrderBy) (limit offset : Option Nat)
  | insert (records : List σ)
  | update (changes : σ) (condition : Option Condition) (ordering : List OrderBy) (limit : Option Nat)
  | delete (condition : Option Condition) (ordering : List OrderBy) (limit offset : Option Nat)

/-- What an operation answers. -/
inductive Answer where
  | rows (rows : List Row)
  | insertion (report : Insertion)
  | affected (count : Nat)

variable {σ : Type}

/-- Kind of the calls that an operation makes. -/
def Operation.kind : Operation σ → CallKind
  | select .. => .query
  | _ => .execute

namespace Resource

variable [FieldSource σ]

/-- One of the four operations. -/
def perform (r : Resource) (op : Operation σ) (store : Recorder) : Except Failure Answer × Recorder :=
  match op with
  | .select condition ordering limit offset =>
    (r.selector.select condition ordering limit offset store).map (Answer.rows <$> ·) id
  | .insert records => (r.inserter.insert records store).map (Answer.insertion <$> ·) id
  | .update changes condition ordering limit =>
    (r.updater.update changes condition ordering limit store).map (Answer.affected <$> ·) id
  | .delete condition ordering limit offset =>
    (r.deleter.delete condition ordering limit offset store).map (Answer.affected <$> ·) id

/-- Calls that an operation makes, behind those that the store has had. -/
def calls (r : Resource) (op : Operation σ) (store : Recorder) : List Call :=
  (r.perform op store).2.calls.toList.drop store.calls.size

/-- Drafts of an operation, unless it is refused as a whole. -/
def drafts (r : Resource) (op : Operation σ) : Except Failure (List Draft) :=
  match op with
  | .select condition ordering limit offset => .ok [r.selector.draft condition ordering limit offset]
  | .insert records =>
    if records.isEmpty then .ok []
    else (fun rows => (r.inserter.batches rows).map r.inserter.draft) <$>
      records.mapM (Row.ofSource r.inserter.fields)
  | .update changes condition ordering limit =>
    (fun prepared => prepared.2.map (r.updater.draft prepared.1)) <$>
      r.updater.prepare changes condition ordering limit
  | .delete condition ordering limit offset =>
    (fun targets => targets.map r.deleter.draft) <$> r.deleter.prepare condition ordering limit offset

/-- Requests of an operation; none if it is refused as a whole. -/
def requests (r : Resource) (op : Operation σ) : List (Except Failure Request) :=
  match r.drafts op with
  | .ok drafts => drafts.map Draft.request
  | .error _ => []

/-- What holds of every draft that the parts of a resource make holds of all drafts of an operation. -/
theorem drafts_all (r : Resource) {op : Operation σ} {P : Draft → Prop}
    (hselect : ∀ condition ordering limit offset, P (r.selector.draft condition ordering limit offset))
    (hinsert : (∃ records, op = .insert records) → ∀ rows, P (r.inserter.draft rows))
    (hupdate : ∀ changes target, P (r.updater.draft changes target))
    (hdelete : ∀ target, P (r.deleter.draft target)) {drafts : List Draft} (h : r.drafts op = .ok drafts) :
    ∀ d ∈ drafts, P d := by
  cases op with
  | select condition ordering limit offset =>
    cases h
    exact List.forall_mem_singleton.2 (hselect condition ordering limit offset)
  | insert records =>
    simp only [Resource.drafts] at h
    split at h
    · cases h
      exact nofun
    · obtain ⟨rows, _, rfl⟩ := map_eq_ok.1 h
      exact List.forall_mem_map.2 fun batch _ => hinsert ⟨records, rfl⟩ batch
  | update changes condition ordering limit =>
    obtain ⟨prepared, _, rfl⟩ := map_eq_ok.1 h
    exact List.forall_mem_map.2 fun target _ => hupdate prepared.1 target
  | delete condition ordering limit offset =>
    obtain ⟨targets, _, rfl⟩ := map_eq_ok.1 h
    exact List.forall_mem_map.2 fun target _ => hdelete target

end Resource

/-! ## From drafts to calls -/

namespace Recorder

/-- Call of a request. -/
def Request.call (kind : CallKind) (request : Request) : Call := ⟨kind, request.sql, request.args⟩

/-- Whether the next change of a script is refused. -/
def refused : List (Except String Outcome) → Bool
  | .error _ :: _ => true
  | _ => false

/-- Calls of some requests, under a script of answers: all up to the first request that there is not, and up to the
first that is refused. -/
def made (kind : CallKind) (outcomes : List (Except String Outcome)) : List (Except Failure Request) → List Call
  | .ok request :: requests =>
    request.call kind :: if refused outcomes then [] else made kind outcomes.tail requests
  | _ => []

/-- Items that are drafted before they are prepared. -/
theorem executeEach_map {α β : Type} {draft : α → β} {prepare : β → Except Failure Request}
    {prepare' : α → Except Failure Request} (h : ∀ item, prepare (draft item) = prepare' item) (store : Recorder)
    (items : List α) : executeEach prepare store (items.map draft) = executeEach prepare' store items := by
  induction items generalizing store with
  | nil => rfl
  | cons item items ih =>
    rw [List.map_cons, executeEach, executeEach, h]
    cases prepare' item with
    | error f => rfl
    | ok request =>
      dsimp only
      rcases store.execute request.sql request.args with ⟨_ | o, store⟩
      · rfl
      · dsimp only
        rw [ih]

theorem executeEach_calls {α : Type} (prepare : α → Except Failure Request) (store : Recorder) (items : List α) :
    (executeEach prepare store items).2.calls.toList =
      store.calls.toList ++ made .execute store.outcomes (items.map prepare) := by
  induction items generalizing store with
  | nil => simp [executeEach, made]
  | cons item items ih =>
    unfold executeEach
    cases h : prepare item with
    | error f => simp [h, made]
    | ok request =>
      rcases hs : store.outcomes with _ | ⟨_ | o, outcomes⟩
      · simp [h, made, refused, execute, answer, hs, record, ih, Request.call]
      · simp [h, made, refused, execute, answer, hs, record, Request.call]
      · simp [h, made, refused, execute, answer, hs, record, ih, Request.call]

/-- There are no more calls than requests. -/
theorem length_made_le_requests (kind : CallKind) (outcomes : List (Except String Outcome))
    (requests : List (Except Failure Request)) : (made kind outcomes requests).length ≤ requests.length := by
  induction requests generalizing outcomes with
  | nil => exact Nat.le_refl 0
  | cons prepared requests ih =>
    cases prepared with
    | error f => exact Nat.zero_le _
    | ok request =>
      rw [made, List.length_cons, List.length_cons]
      refine Nat.succ_le_succ ?_
      split
      · exact Nat.zero_le _
      · exact ih outcomes.tail

/-- The n-th call is that of the n-th request. -/
theorem made_getElem? {kind : CallKind} {outcomes : List (Except String Outcome)}
    {requests : List (Except Failure Request)} {i : Nat} {call : Call}
    (h : (made kind outcomes requests)[i]? = some call) :
    ∃ request, requests[i]? = some (.ok request) ∧ call = request.call kind := by
  induction requests generalizing outcomes i with
  | nil => cases h
  | cons prepared requests ih =>
    cases prepared with
    | error f => cases h
    | ok request =>
      cases i with
      | zero => exact ⟨request, rfl, (Option.some.inj h).symm⟩
      | succ i =>
        rw [made, List.getElem?_cons_succ] at h
        split at h
        · cases h
        · exact ih h

theorem mem_made {kind : CallKind} {outcomes : List (Except String Outcome)}
    {requests : List (Except Failure Request)} {call : Call} (h : call ∈ made kind outcomes requests) :
    ∃ request, .ok request ∈ requests ∧ call = request.call kind := by
  obtain ⟨i, hi⟩ := List.mem_iff_getElem?.1 h
  obtain ⟨request, hrequest, hcall⟩ := made_getElem? hi
  exact ⟨request, List.mem_of_getElem? hrequest, hcall⟩

/-- Requests that succeed and fail together come to calls one by one. -/
theorem made_related {E : Failure → Failure → Prop} {S : Request → Request → Prop} {kind kind' : CallKind}
    {outcomes : List (Except String Outcome)} {requests requests' : List (Except Failure Request)}
    (h : List.Forall₂ (Related E S) requests requests') :
    List.Forall₂ (fun call call' => ∃ r r', S r r' ∧ call = r.call kind ∧ call' = r'.call kind')
      (made kind outcomes requests) (made kind' outcomes requests') := by
  induction h generalizing outcomes with
  | nil => exact .nil
  | cons hr _ ih =>
    cases hr with
    | error _ => exact .nil
    | ok hr =>
      rw [made, made]
      refine .cons ⟨_, _, hr, rfl, rfl⟩ ?_
      split
      · exact .nil
      · exact ih

end Recorder

namespace Resource

open Recorder (made)

variable [FieldSource σ]

/-- What an operation that changes its table answers, by what the store has reported. -/
def answerOf (r : Resource) (op : Operation σ) (outcomes : List Outcome) : Answer :=
  match op with
  | .insert _ => .insertion (r.inserter.report outcomes)
  | _ => .affected (Outcome.totalAffected outcomes)

/-- **An operation that changes its table is a run of its drafts.** -/
theorem perform_eq_run (r : Resource) {op : Operation σ} (hop : op.kind = .execute) (store : Recorder) :
    r.perform op store =
      match r.drafts op with
      | .error f => (.error f, store)
      | .ok drafts => (store.executeEach Draft.request drafts).map (r.answerOf op <$> ·) id := by
  cases op with
  | select condition ordering limit offset => cases hop
  | insert records =>
    rw [perform, Inserter.insert, drafts]
    split
    · have hreport : r.inserter.report [] = ⟨[], 0⟩ := by
        unfold Inserter.report
        cases r.inserter.mode with
        | batched => rfl
        | perRecord => rfl
      show _ = (Except.ok (Answer.insertion (r.inserter.report [])), store)
      rw [hreport]
      rfl
    · cases records.mapM (Row.ofSource r.inserter.fields) with
      | error f => rfl
      | ok rows =>
        have hrun : store.executeEach Draft.request ((r.inserter.batches rows).map r.inserter.draft) =
            store.executeEach r.inserter.request (r.inserter.batches rows) :=
          Recorder.executeEach_map (fun _ => rfl) store _
        show _ = Prod.map _ id (store.executeEach Draft.request ((r.inserter.batches rows).map r.inserter.draft))
        rw [hrun]
        dsimp only
        rcases store.executeEach r.inserter.request (r.inserter.batches rows) with ⟨_ | outcomes, store'⟩
        · rfl
        · rfl
  | update changes condition ordering limit =>
    rw [perform, Updater.update, drafts]
    cases r.updater.prepare changes condition ordering limit with
    | error f => rfl
    | ok prepared =>
      have hrun : store.executeEach Draft.request (prepared.2.map (r.updater.draft prepared.1)) =
          store.executeEach (r.updater.request prepared.1) prepared.2 :=
        Recorder.executeEach_map (r.updater.draft_request prepared.1) store _
      show _ = Prod.map _ id (store.executeEach Draft.request (prepared.2.map (r.updater.draft prepared.1)))
      rw [hrun]
      dsimp only
      rcases store.executeEach (r.updater.request prepared.1) prepared.2 with ⟨_ | outcomes, store'⟩
      · rfl
      · rfl
  | delete condition ordering limit offset =>
    rw [perform, Deleter.delete, drafts]
    cases r.deleter.prepare condition ordering limit offset with
    | error f => rfl
    | ok targets =>
      have hrun : store.executeEach Draft.request (targets.map r.deleter.draft) =
          store.executeEach r.deleter.request targets := Recorder.executeEach_map (fun _ => rfl) store _
      show _ = Prod.map _ id (store.executeEach Draft.request (targets.map r.deleter.draft))
      rw [hrun]
      dsimp only
      rcases store.executeEach r.deleter.request targets with ⟨_ | outcomes, store'⟩
      · rfl
      · rfl

theorem perform_calls (r : Resource) (op : Operation σ) (store : Recorder) :
    (r.perform op store).2.calls.toList = store.calls.toList ++ made op.kind store.outcomes (r.requests op) := by
  have hrun : op.kind = .execute →
      (r.perform op store).2.calls.toList = store.calls.toList ++ made .execute store.outcomes (r.requests op) := by
    intro hop
    rw [perform_eq_run r hop, requests]
    cases r.drafts op with
    | error f => simp [made]
    | ok drafts => exact Recorder.executeEach_calls Draft.request store drafts
  cases op with
  | select condition ordering limit offset =>
    have hrequest : r.requests (.select condition ordering limit offset : Operation σ) =
        [r.selector.request condition ordering limit offset] := rfl
    rw [hrequest, perform, Selector.select]
    cases r.selector.request condition ordering limit offset with
    | error f => simp [made]
    | ok request => simp [made, Recorder.query, Recorder.record, Recorder.Request.call, Operation.kind]
  | _ => exact hrun rfl

/-- **The calls of an operation are those of its drafts.** -/
theorem calls_eq (r : Resource) (op : Operation σ) (store : Recorder) :
    r.calls op store = made op.kind store.outcomes (r.requests op) := by
  rw [calls, perform_calls, ← Array.length_toList, List.drop_left]

theorem mem_calls {r : Resource} {op : Operation σ} {store : Recorder} {call : Call} (h : call ∈ r.calls op store) :
    ∃ drafts draft request, r.drafts op = .ok drafts ∧ draft ∈ drafts ∧ draft.request = .ok request ∧
      call = request.call op.kind := by
  rw [calls_eq] at h
  obtain ⟨request, hrequest, hcall⟩ := Recorder.mem_made h
  unfold requests at hrequest
  cases hdrafts : r.drafts op with
  | error f => rw [hdrafts] at hrequest; cases hrequest
  | ok drafts =>
    rw [hdrafts] at hrequest
    obtain ⟨draft, hdraft, hmade⟩ := List.mem_map.1 hrequest
    exact ⟨drafts, draft, request, rfl, hdraft, hmade, hcall⟩

end Resource

/-! ## A table of users -/

/-- Configuration of a table with two columns, one of which has another name than its field. -/
def Config.users : Config where
  table := ⟨"users", none⟩
  fields := Dict.ofList [("name", "full_name"), ("nick", "nick")]
  identifier := none
  placeholders := .numbered
  insertMode := .batched
  updateMode := .direct
  deleteMode := .direct
  tables := []
  joins := []

/-- An update whose new value, and a text of whose condition, is the name of a field. -/
def Operation.renameNick : Operation Record :=
  .update (Dict.ofList [("nick", .text "name")])
    (some (.conj [.equalTo (.bare "nick") (.text "name"), .equalTo (.bare "name") (.text "Ann")])) [] none

end BoundSql
