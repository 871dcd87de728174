import BoundSql.Proofs.Bindings.Exchange
import BoundSql.Proofs.Resource.ByIdentifier
import BoundSql.Proofs.Resource.Insertion
import BoundSql.Proofs.Sql.Writable

/-!
# Requests that are rejected

An operation that is rejected for a reason of its own, and not because its store refuses a call, has made no call at
all, with two exceptions (`Resource.rejections_make_no_calls`). Both concern operations of several statements, which are
bound and written one by one, each after the calls of those before it:

* records that are inserted one by one, one of which has a number that is not finite;
* identifiers one of which is the name of a field, and so is passed over when it is bound.

Then the calls are those for the records or for the identifiers before it (`Interrupted`). No other reason is found so
late: what a row or an identifier can be has been checked by then, and statements that have as many operands as they
need are rejected for nothing else.
-/

namespace BoundSql

open Sql (Token Context Writer)
open Placeholder (Style)

/-! ## Values that cannot be bound -/

/-- The only scalars without a canonical text are numbers that are not finite. -/
theorem Value.eq_of_canonical_error {v : Value} {f : Failure} (h : v.canonical = .error f) (hnull : v.isNull = false)
    (hlist : v.isList = false) : ∃ x, v = .float x ∧ x.isFinite = false ∧ f = .nonFiniteText x := by
  cases v with
  | float x =>
    replace h : (if x.isFinite then Except.ok (Layout.plain.text x) else .error (.nonFiniteText x)) = .error f := h
    split at h
    · cases h
    · next hx => exact ⟨x, rfl, Bool.eq_false_iff.2 hx, (Except.error.inj h).symm⟩
  | null => cases hnull
  | list items => cases hlist
  | _ => cases h

namespace Binder

variable {style : Style} {b : Binder} {m m' : Bindings} {vs : List Value} {f : Failure}

/-- A walk is stopped by a value without a canonical text. -/
theorem bindScalars_stopped (hb : b.scheme = style.scheme) (h : b.bindScalars m vs = ⟨m', some f⟩) :
    ∃ v ∈ vs, v.canonical = .error f := by
  induction vs generalizing m with
  | nil => cases h
  | cons v vs ih =>
    unfold bindScalars at h
    cases hv : b.bindScalar m v with
    | ok m₁ =>
      rw [hv] at h
      obtain ⟨u, hu, hcanonical⟩ := ih h
      exact ⟨u, List.mem_cons_of_mem v hu, hcanonical⟩
    | error f' =>
      rw [hv] at h
      cases h
      refine ⟨v, List.mem_cons_self, ?_⟩
      rw [bindScalar, hb] at hv
      rcases bind_eq_error.1 hv with hv | ⟨canonical, hcanonical, hv⟩
      · exact hv
      · -- a value with a canonical text has a token
        split at hv
        · cases hv
        · obtain ⟨token, htoken⟩ := style.token_ok hcanonical m'.nextPosition
          rw [htoken] at hv
          cases hv

/-- Integers are always bound, or passed over. -/
theorem bindScalars_integers (hb : b.scheme = style.scheme) (m : Bindings) (ids : List Int64) :
    ∃ m', b.bindScalars m (ids.map .int) = ⟨m', none⟩ := by
  cases h : b.bindScalars m (ids.map .int) with
  | mk m' failure? =>
    cases failure? with
    | none => exact ⟨m', rfl⟩
    | some f =>
      obtain ⟨v, hv, hcanonical⟩ := bindScalars_stopped hb h
      obtain ⟨id, _, rfl⟩ := List.mem_map.1 hv
      cases hcanonical

end Binder

/-! ## Rows -/

theorem Dict.mem_values_insert {α : Type} {d : Dict α} {key : String} {value v : α}
    (h : v ∈ (d.insert key value).values) : v = value ∨ v ∈ d.values := by
  obtain ⟨e, he, rfl⟩ := List.mem_map.1 h
  rw [entries_insert] at he
  split at he
  · obtain ⟨e', he', rfl⟩ := List.mem_map.1 he
    unfold replaceEntry
    split
    · exact Or.inl rfl
    · exact Or.inr (List.mem_map_of_mem he')
  · rcases List.mem_append.1 he with he | he
    · exact Or.inr (List.mem_map_of_mem he)
    · exact Or.inl (congrArg Prod.snd (List.mem_singleton.1 he))

theorem Dict.mem_values_of_get? {α : Type} {d : Dict α} {key : String} {v : α} (h : d.get? key = some v) :
    v ∈ d.values := by
  obtain ⟨e, he, rfl⟩ := Option.map_eq_some_iff.1 h
  exact List.mem_map_of_mem (List.mem_of_find?_eq_some he)

namespace Row

variable {σ : Type} [FieldSource σ] {source : σ} {row row' : Row}

/-- A row without lists. -/
def Plain (row : Row) : Prop := ∀ v ∈ row.values, v.isList = false

theorem cell_plain {field : String} {v : Value} (h : cell source field = .ok (some v)) : v.isList = false := by
  unfold cell at h
  split at h
  · cases h
  · next u hne _ =>
    cases Option.some.inj (Except.ok.inj h)
    cases v with
    | list items => exact absurd rfl (hne items)
    | _ => rfl
  · split at h
    · cases h
    · cases h

theorem addCells_plain {fields : List (String × String)} (hrow : row.Plain)
    (h : addCells source row fields = .ok row') : row'.Plain := by
  induction fields generalizing row with
  | nil => exact Except.ok.inj h ▸ hrow
  | cons entry fields ih =>
    unfold addCells at h
    obtain ⟨cell?, hcell, h⟩ := bind_eq_ok.1 h
    cases cell? with
    | none => exact ih hrow h
    | some v =>
      refine ih (fun u hu => ?_) h
      rcases Dict.mem_values_insert hu with rfl | hu
      · exact cell_plain hcell
      · exact hrow u hu

/-- **Rows that are read from a source hold no lists.** -/
theorem ofSource_plain {fields : FieldMap} (h : ofSource fields source = .ok row) : row.Plain :=
  have hempty : Row.Plain Dict.empty := fun _ hv => absurd hv List.not_mem_nil
  addCells_plain hempty h

/-- Scalars of rows without lists are their values. -/
theorem Plain.scalar (hrow : row.Plain) {v : Value} (hv : v ∈ row.values.flatMap Binder.scalarsOf) :
    v ∈ row.values ∧ v.isNull = false ∧ v.isList = false := by
  obtain ⟨u, hu, hv⟩ := List.mem_flatMap.1 hv
  have hlist := hrow u hu
  cases u with
  | null => cases hv
  | list items => cases hlist
  | _ =>
    obtain rfl := List.mem_singleton.1 hv
    exact ⟨hu, rfl, rfl⟩

/-- A value of a row can be written once the scalars of the row are bound. -/
theorem Plain.cell_succeeds (hrow : row.Plain) {m : Bindings}
    (hbound : ∀ v ∈ row.values.flatMap Binder.scalarsOf, ∃ text, v.canonical = .ok text ∧ text ∈ m.keys) {v : Value}
    (hv : v ∈ row.values) : Succeeds (Sql.boundTokens m v) := by
  cases hnull : v.isNull with
  | true =>
    unfold Sql.boundTokens
    rw [hnull]
    exact .ok _
  | false =>
    have hscalar : v ∈ row.values.flatMap Binder.scalarsOf := by
      refine List.mem_flatMap.2 ⟨v, hv, ?_⟩
      have hlist := hrow v hv
      cases v with
      | null => cases hnull
      | list items => cases hlist
      | _ => exact List.mem_cons_self
    obtain ⟨text, htext, hkey⟩ := hbound v hscalar
    exact (Sql.boundTokens_succeeds_iff htext).2 hkey

end Row

/-! ## Conditions on an identifier -/

section

variable {ctx : Context} {f : Failure}

theorem Sql.scopeUnits_rejected {table : String} {c : Condition}
    (h : Sql.scopeUnits ctx.writer ctx.fields table (some c) [] none none = .error f) :
    Sql.conditionTokens ctx c = .error f := by
  rcases bind_eq_error.1 h with h | ⟨rows, _, h⟩
  · exact map_eq_error.1 h
  · cases h

namespace Condition

theorem body_rejected {operator : Operator} {terms : List Term}
    (h : Sql.conditionTokens ctx (.ofTerms operator terms) = .error f) :
    body ctx.writer operator (Sql.operands ctx.writer ctx.fields terms) = .error f := by
  rw [Sql.conditionTokens, ofTerms, Sql.conditionUnits] at h
  rcases bind_eq_error.1 h with h | ⟨units, _, h⟩
  · exact h
  · cases h

theorem binary_rejected {operator : Operator} {between : List Token} {field : FieldRef} {v : Value}
    (h : binary ctx.writer operator between [fieldOperand ctx field, literalOperand ctx v] = .error f) :
    ctx.writer.literal v = .error f := by
  rcases bind_eq_error.1 h with h | ⟨left, _, h⟩
  · cases h
  · rcases bind_eq_error.1 h with h | ⟨right, _, h⟩
    · exact h
    · cases h

/-- Equality of a field and an integer is rejected if the integer is. -/
theorem equalTo_rejected {field : FieldRef} {id : Int64}
    (h : Sql.conditionTokens ctx (.equalTo field (.int id)) = .error f) :
    Sql.scalarTokens ctx (.int id) = .error f := by
  replace h := body_rejected h
  rw [operands_field, operands_literal] at h
  replace h : equality ctx.writer .equalTo .equal [.keyword .is, .keyword .null]
    [fieldOperand ctx field, literalOperand ctx (.int id)] = .error f := h
  have hnull : ¬(Value.int id).isNull = true := Bool.false_ne_true
  rw [equality_eq, if_neg hnull] at h
  exact binary_rejected h

/-- Membership of a field in a list of integers is rejected if one of the integers is. -/
theorem inList_rejected {field : FieldRef} {ids : List Int64}
    (h : Sql.conditionTokens ctx (.inList field (ids.map .int)) = .error f) :
    ∃ id ∈ ids, Sql.scalarTokens ctx (.int id) = .error f := by
  replace h := body_rejected h
  rw [operands_field, operands_literal] at h
  cases ids with
  | nil => cases h
  | cons id ids =>
    replace h : binary ctx.writer .in [.keyword .in]
      [fieldOperand ctx field, literalOperand ctx (.list ((id :: ids).map .int))] = .error f := h
    replace h := binary_rejected h
    rcases bind_eq_error.1 h with h | ⟨parts, _, h⟩
    · obtain ⟨v, hv, h⟩ := mapM_eq_error h
      obtain ⟨id', hid', rfl⟩ := List.mem_map.1 hv
      exact ⟨id', hid', h⟩
    · cases h

end Condition

/-- **An identifier is rejected if it is taken for a field**: its text is the name of one, so it was passed over. -/
theorem Sql.integer_rejected {b : Binder} {m₀ m : Bindings} {fields : FieldMap}
    (hb : ∀ name, name ∈ b.ignored ↔ name ∈ fields.fields) {c : Condition} (hbound : b.bindCondition m₀ c = ⟨m, none⟩)
    {id : Int64} (hid : .int id ∈ c.scalars) (h : Sql.scalarTokens ⟨m, fields⟩ (.int id) = .error f) :
    Value.integerText id ∈ fields.fields ∧ f = .unbound (.int id) := by
  replace h : Sql.boundTokens m (.int id) = .error f := h
  have hfailure : f = .unbound (.int id) := by
    unfold Sql.boundTokens at h
    split at h
    · cases h
    · split at h
      · cases h
      · exact (Except.error.inj h).symm
  refine ⟨?_, hfailure⟩
  by_contra hname
  obtain ⟨canonical, hcanonical, hkeys⟩ := Binder.mem_keys_iff hb hbound hid
  cases Except.ok.inj hcanonical
  obtain ⟨ts, hts⟩ := (Sql.boundTokens_succeeds_iff hcanonical).2 (hkeys.2 (Or.inr hname))
  rw [hts] at h
  cases h

end

/-! ## Drafts -/

/-- A single row can be written if its values can. -/
theorem Insert.single_succeeds {τ : Type} {w : Writer τ} {table : String} {columns : List String} {row : Row}
    (h : ∀ v ∈ row.values, Succeeds (w.cell v)) : Succeeds (Insert.units ⟨table, columns, [row]⟩ w) := by
  unfold Insert.units
  dsimp only
  split
  · exact .ok _
  · refine (Succeeds.mapM fun row' hrow' => ?_).bind fun _ => .ok _
    obtain rfl := List.mem_singleton.1 hrow'
    refine (Succeeds.mapM fun column _ => ?_).bind fun _ => .ok _
    cases hv : row'.get? column with
    | none => exact .ok _
    | some v => exact h v (Dict.mem_values_of_get? hv)

/-- An update whose new values can be written is rejected for its condition. -/
theorem Update.units_rejected {ctx : Context} {table : String} {changes : Row} {c : Condition} {f : Failure}
    (hchanges : changes.isEmpty = false) (hcells : ∀ v ∈ changes.values, Succeeds (ctx.writer.cell v))
    (h : Update.units ⟨table, changes, some c, [], none⟩ ctx.writer ctx.fields = .error f) :
    Sql.conditionTokens ctx c = .error f := by
  rw [Update.units, if_neg (Bool.eq_false_iff.1 hchanges)] at h
  have hassignments : Succeeds (changes.entries.mapM (Update.assignmentUnits ctx.writer)) :=
    .mapM fun e he => (hcells e.2 (List.mem_map_of_mem he)).map _
  obtain ⟨assignments, hassignments⟩ := hassignments
  rcases bind_eq_error.1 h with h | ⟨_, _, h⟩
  · cases hassignments.symm.trans h
  · rcases bind_eq_error.1 h with h | ⟨scope, _, h⟩
    · exact Sql.scopeUnits_rejected h
    · cases h

section

variable {style : Style} {f : Failure}

/-- A draft whose values are bound is rejected for its text. -/
theorem Draft.units_rejected {d : Draft} {m : Bindings} (hvalues : d.values = ⟨m, none⟩)
    (h : d.request = .error f) : d.statement.units (Context.writer ⟨m, d.fields⟩) d.fields = .error f := by
  rw [Draft.request, hvalues] at h
  exact map_eq_error.1 h

/-- **A single record is rejected for a number that is not finite.** -/
theorem Inserter.draft_rejected {i : Inserter} (hi : i.binder = Binder.ofStyle style) {row : Row} (hrow : row.Plain)
    (h : (i.draft [row]).request = .error f) :
    ∃ x, .float x ∈ row.values ∧ x.isFinite = false ∧ f = .nonFiniteText x := by
  have hvalues : (i.draft [row]).values =
      (Binder.ofStyle style).bindScalars .empty (row.values.flatMap Binder.scalarsOf) := by
    rw [← hi, ← Binder.bindValues_eq]
    show i.binder.bindValues .empty ([row].flatMap Dict.values) = _
    rw [List.flatMap_singleton]
  cases hbound : (Binder.ofStyle style).bindScalars .empty (row.values.flatMap Binder.scalarsOf) with
  | mk m failure? =>
    rw [hbound] at hvalues
    cases failure? with
    | some f' =>
      rw [Draft.request, hvalues] at h
      cases h
      obtain ⟨v, hv, hcanonical⟩ := Binder.bindScalars_stopped rfl hbound
      obtain ⟨hv, hnull, hlist⟩ := hrow.scalar hv
      obtain ⟨x, rfl, hx, hf⟩ := Value.eq_of_canonical_error hcanonical hnull hlist
      exact ⟨x, hv, hx, hf⟩
    | none =>
      -- whatever is bound can be written
      exfalso
      have hkeys : ∀ v ∈ row.values.flatMap Binder.scalarsOf, ∃ text, v.canonical = .ok text ∧ text ∈ m.keys := by
        intro v hv
        obtain ⟨text, htext, hkey⟩ := Binder.bindScalars_covers hbound v hv
        exact ⟨text, htext, hkey.resolve_left List.not_mem_nil⟩
      have hunits : Succeeds ((i.draft [row]).statement.units (Context.writer ⟨m, i.fields⟩) i.fields) :=
        Insert.single_succeeds fun v hv => hrow.cell_succeeds hkeys hv
      obtain ⟨ts, hts⟩ := hunits
      cases hts.symm.trans (Draft.units_rejected hvalues h)

/-- **An update of one row is rejected for its identifier**, if another identifier is not. -/
theorem Updater.draft_rejected {u : Updater} (hv : u.valueBinder = Binder.ofStyle style)
    (hc : u.conditionBinder = (Binder.ofStyle style).ignoring u.fields.fields) {row : Row} (hrow : row.Plain)
    {field : FieldRef} {id id' : Int64} {request : Recorder.Request}
    (hmade : (u.draft row (Target.all (.equalTo field (.int id)))).request = .ok request)
    (h : (u.draft row (Target.all (.equalTo field (.int id')))).request = .error f) :
    Value.integerText id' ∈ u.fields.fields ∧ f = .unbound (.int id') := by
  obtain ⟨m, ts, hvalues, hunits, _⟩ := Draft.request_eq_ok hmade
  have hchanges : row.isEmpty = false := by
    replace hunits : Update.units ⟨u.table, row, some (.equalTo field (.int id)), [], none⟩ _ _ = .ok ts := hunits
    unfold Update.units at hunits
    split at hunits
    · cases hunits
    · next hempty => exact Bool.eq_false_iff.2 hempty
  -- the new values are bound before the identifier, and alike for every identifier
  obtain ⟨m₁, hrows⟩ : ∃ m₁, u.valueBinder.bindValues .empty row.values = ⟨m₁, none⟩ := by
    unfold draft at hvalues
    dsimp only at hvalues
    split at hvalues
    · next m₁ hrows => exact ⟨m₁, hrows⟩
    · cases hvalues
  have hscheme : u.conditionBinder.scheme = style.scheme := by
    rw [hc]
    rfl
  obtain ⟨m', hbound⟩ := Binder.bindScalars_integers hscheme m₁ [id']
  replace hbound : u.conditionBinder.bindCondition m₁ (.equalTo field (.int id')) = ⟨m', none⟩ :=
    (Binder.bindCondition_eq _ m₁ _).trans hbound
  have hvalues' : (u.draft row (Target.all (.equalTo field (.int id')))).values = ⟨m', none⟩ := by
    unfold draft
    rw [hrows]
    exact hbound
  have hcells : ∀ v ∈ row.values, Succeeds ((Context.writer ⟨m', u.fields⟩).cell v) := by
    have hgrows := u.conditionBinder.bindCondition_grows m₁ (.equalTo field (.int id'))
    rw [hbound] at hgrows
    rw [Binder.bindValues_eq, hv] at hrows
    refine fun v hv => hrow.cell_succeeds (fun v hv => ?_) hv
    obtain ⟨text, htext, hkey⟩ := Binder.bindScalars_covers hrows v hv
    exact ⟨text, htext, hgrows.mem_keys (hkey.resolve_left List.not_mem_nil)⟩
  have hrejected := Update.units_rejected hchanges hcells (Draft.units_rejected hvalues' h)
  refine Sql.integer_rejected (fun name => ?_) hbound List.mem_cons_self (Condition.equalTo_rejected hrejected)
  rw [hc]
  rfl

/-- **A removal of some rows is rejected for one of their identifiers.** -/
theorem Deleter.draft_rejected {d : Deleter} (hd : d.binder = (Binder.ofStyle style).ignoring d.fields.fields)
    {field : FieldRef} {ids : List Int64}
    (h : (d.draft (Target.all (.inList field (ids.map .int)))).request = .error f) :
    ∃ id ∈ ids, Value.integerText id ∈ d.fields.fields ∧ f = .unbound (.int id) := by
  have hscalars := Condition.inList_scalars field ids
  have hscheme : d.binder.scheme = style.scheme := by
    rw [hd]
    rfl
  obtain ⟨m, hbound⟩ := Binder.bindScalars_integers hscheme .empty ids
  rw [← hscalars, ← Binder.bindCondition_eq] at hbound
  have hunits : Delete.units ⟨d.table, some (.inList field (ids.map .int)), [], none, none⟩
    (Context.writer ⟨m, d.fields⟩) d.fields = .error f := Draft.units_rejected hbound h
  rcases bind_eq_error.1 hunits with hunits | ⟨scope, _, hunits⟩
  · obtain ⟨id, hid, hrejected⟩ := Condition.inList_rejected (Sql.scopeUnits_rejected hunits)
    refine ⟨id, hid, Sql.integer_rejected (fun name => ?_) hbound ?_ hrejected⟩
    · rw [hd]
      rfl
    · rw [hscalars]
      exact List.mem_map_of_mem hid
  · cases hunits

end

/-! ## Runs -/

/-- **A run that fails, but not because a call is refused**, is stopped by the item behind the calls that it has made:
that item cannot be prepared. -/
theorem Recorder.executeEach_rejected {α : Type} {prepare : α → Except Failure Request} {store : Recorder}
    {items : List α} {f : Failure} (h : (store.executeEach prepare items).1 = .error f) (hf : f.kind ≠ .execution) :
    ∃ item, items[(made .execute store.outcomes (items.map prepare)).length]? = some item ∧
      prepare item = .error f := by
  induction items generalizing store with
  | nil => cases h
  | cons item items ih =>
    unfold executeEach at h
    cases hrequest : prepare item with
    | error f' =>
      rw [hrequest] at h
      cases h
      refine ⟨item, ?_, hrequest⟩
      rw [List.map_cons, hrequest]
      rfl
    | ok request =>
      simp only [hrequest, execute] at h
      cases hanswer : answer ⟨1, none⟩ store.outcomes with
      | error f' =>
        rw [hanswer] at h
        cases h
        -- a call that is refused fails with the message of the store
        unfold answer at hanswer
        split at hanswer
        · cases hanswer
        · cases hanswer
        · cases hanswer
          exact absurd rfl hf
      | ok o =>
        simp only [hanswer] at h
        obtain ⟨item', hitem', hrejected⟩ := ih (map_eq_error.1 h)
        refine ⟨item', ?_, hrejected⟩
        rw [List.map_cons, hrequest, made, not_refused hanswer, if_neg Bool.false_ne_true, List.length_cons,
          List.getElem?_cons_succ]
        exact hitem'

variable {σ : Type} [FieldSource σ]

namespace Resource

open Recorder (made)

/-- An operation that fails, but not because a call is refused, is rejected before its first call, or for the draft
behind the calls that it has made. -/
theorem calls_nil_or_draft_rejected {r : Resource} {op : Operation σ} {store : Recorder} {f : Failure}
    (h : (r.perform op store).1 = .error f) (hf : f.kind ≠ .execution) : r.calls op store = [] ∨
      op.kind = .execute ∧ ∃ drafts draft, r.drafts op = .ok drafts ∧
        drafts[(r.calls op store).length]? = some draft ∧ draft.request = .error f := by
  have hrun : op.kind = .execute → r.calls op store = [] ∨ op.kind = .execute ∧ ∃ drafts draft,
      r.drafts op = .ok drafts ∧ drafts[(r.calls op store).length]? = some draft ∧ draft.request = .error f := by
    intro hop
    rw [perform_eq_run r hop] at h
    rw [calls_eq, requests, hop]
    cases hdrafts : r.drafts op with
    | error f' => exact Or.inl rfl
    | ok drafts =>
      rw [hdrafts] at h
      obtain ⟨draft, hdraft, hrejected⟩ := Recorder.executeEach_rejected (map_eq_error.1 h) hf
      exact Or.inr ⟨rfl, drafts, draft, rfl, hdraft, hrejected⟩
  cases op with
  | select condition ordering limit offset =>
    left
    rw [calls_eq]
    show made .query store.outcomes [r.selector.request condition ordering limit offset] = []
    replace h : (r.selector.select condition ordering limit offset store).1 = .error f := map_eq_error.1 h
    unfold Selector.select at h
    cases hrequest : r.selector.request condition ordering limit offset with
    | error f' => rfl
    | ok request =>
      rw [hrequest] at h
      -- a query that is made fails only if it is refused
      replace h : Recorder.answer [] store.rows = .error f := h
      unfold Recorder.answer at h
      split at h
      · cases h
      · cases h
      · cases h
        exact absurd rfl hf
  | _ => exact hrun rfl

/-- **How a part of an operation stays applied although the operation is rejected.** Calls have been made one by one
for what comes before a record or an identifier, and this one is rejected. -/
inductive Interrupted (c : Config) (updating deleting : Targeting) (calls : List Call) : Operation σ → Failure → Prop
  /-- A record that is inserted on its own has a number that is not finite. -/
  | insert {records : List σ} {rows : List Row} {row : Row} {x : Binary64} (mode : c.insertMode = .perRecord)
      (read : List.Forall₂ (fun record row => Row.ofSource c.fields record = .ok row) records rows)
      (made : ∀ (k : Nat) (call : Call), calls[k]? = some call → ∃ row, rows[k]? = some row ∧ call.InsertsRows c.table.name [row])
      (next : rows[calls.length]? = some row) (value : .float x ∈ row.values) (infinite : x.isFinite = false) :
      Interrupted c updating deleting calls (.insert records) (.nonFiniteText x)
  /-- An identifier of an update is the name of a field. -/
  | update {identifier : FieldRef} {resolve : Condition → Except Failure (List Int64)} {changes : σ} {row : Row}
      {condition : Condition} {ordering : List OrderBy} {limit : Option Nat} {ids : List Int64} {id : Int64}
      (targeting : updating = .byIdentifier identifier resolve) (read : Row.ofSource c.fields changes = .ok row)
      (resolved : resolve condition = .ok ids)
      (made : ∀ (k : Nat) (call : Call), calls[k]? = some call → ∃ id, ids[k]? = some id ∧
        call.UpdatesById c.table.name (c.fields.identifierColumn identifier) row id)
      (next : ids[calls.length]? = some id) (name : Value.integerText id ∈ c.fields.fields) :
      Interrupted c updating deleting calls (.update changes (some condition) ordering limit) (.unbound (.int id))
  /-- An identifier among the thousand that a removal comes to next is the name of a field. -/
  | delete {identifier : FieldRef} {resolve : Condition → Except Failure (List Int64)} {condition : Condition}
      {ordering : List OrderBy} {limit offset : Option Nat} {ids : List Int64} {id : Int64}
      (targeting : deleting = .byIdentifier identifier resolve) (resolved : resolve condition = .ok ids)
      (made : ∀ (k : Nat) (call : Call), calls[k]? = some call →
        call.RemovesByIds c.table.name (c.fields.identifierColumn identifier) (slice ids k))
      (next : id ∈ slice ids calls.length) (name : Value.integerText id ∈ c.fields.fields) :
      Interrupted c updating deleting calls (.delete (some condition) ordering limit offset) (.unbound (.int id))

variable {c : Config} {updating deleting : Targeting} {store : Recorder} {f : Failure}

section

variable {op : Operation σ} {drafts : List Draft} {draft : Draft}
  (hdrafts : (assemble c updating deleting).drafts op = .ok drafts)
  (hne : (assemble c updating deleting).calls op store ≠ [])
  (hdraft : drafts[((assemble c updating deleting).calls op store).length]? = some draft)
  (h : draft.request = .error f)

include hdrafts hne hdraft

/-- What is rejected behind the first call has at least two drafts. -/
theorem drafts_ne_singleton (first : Draft) : drafts ≠ [first] := by
  rintro rfl
  have hpos : 0 < ((assemble c updating deleting).calls op store).length := List.length_pos_iff.2 hne
  have hlt := (List.getElem?_eq_some_iff.1 hdraft).1
  rw [List.length_singleton] at hlt
  omega

include h

/-- An insertion that is rejected behind its first call. -/
theorem insert_interrupted {records : List σ} (hop : op = .insert records) :
    Interrupted c updating deleting ((assemble c updating deleting).calls op store) op f := by
  have hsingle := drafts_ne_singleton hdrafts hne hdraft
  subst hop
  obtain ⟨rows, hrows, ⟨_, rfl⟩ | ⟨_, rfl⟩⟩ := insert_drafts hdrafts
  · cases hdraft
  · rw [List.getElem?_map, Option.map_eq_some_iff] at hdraft
    obtain ⟨batch, hbatch, rfl⟩ := hdraft
    rw [Inserter.batches_getElem?] at hbatch
    cases hmode : c.insertMode with
    | batched =>
      -- there is one draft for all rows
      have hbatches : (assemble c updating deleting).inserter.batches rows = [rows] := by
        unfold Inserter.batches
        rw [show (assemble c updating deleting).inserter.mode = .batched from hmode]
      rw [hbatches] at hsingle
      exact absurd rfl (hsingle _)
    | perRecord =>
      rw [show (assemble c updating deleting).inserter.mode = .perRecord from hmode] at hbatch
      obtain ⟨row, hrow, rfl⟩ := hbatch
      obtain ⟨record, _, hread⟩ := exists_of_forall₂_right hrows (List.mem_of_getElem? hrow)
      obtain ⟨x, hvalue, hx, rfl⟩ := Inserter.draft_rejected rfl (Row.ofSource_plain hread) h
      refine .insert hmode hrows (fun k call hcall => ?_) hrow hvalue hx
      obtain ⟨rows', batch, m, ts, hrows', hbatch, hmade⟩ := exists_madeOf_batch hcall
      cases (mapM_eq_ok.2 hrows).symm.trans (mapM_eq_ok.2 hrows')
      rw [hmode] at hbatch
      obtain ⟨row', hrow', rfl⟩ := hbatch
      exact ⟨row', hrow', hmade.insertsRows⟩

/-- An update that is rejected behind its first call. -/
theorem update_interrupted {changes : σ} {condition : Option Condition} {ordering : List OrderBy} {limit : Option Nat}
    (hop : op = .update changes condition ordering limit) :
    Interrupted c updating deleting ((assemble c updating deleting).calls op store) op f := by
  have hsingle := drafts_ne_singleton hdrafts hne hdraft
  obtain ⟨call, rest, hcalls⟩ := List.exists_cons_of_ne_nil hne
  have hcall : ((assemble c updating deleting).calls op store)[0]? = some call := hcalls ▸ rfl
  obtain ⟨first, request, _, _, hfirst, hrequest, _⟩ := exists_madeOf_getElem? hdrafts hcall
  have hmade := fun (k : Nat) (call : Call)
    (hcall : ((assemble c updating deleting).calls op store)[k]? = some call) => exists_madeOf_getElem? hdrafts hcall
  subst hop
  cases updating with
  | direct =>
    obtain ⟨cond, row, _, rfl⟩ := drafts_update_direct hdrafts
    exact absurd rfl (hsingle _)
  | byIdentifier identifier resolve =>
    obtain ⟨cond, ids, row, rfl, hids, hrow, rfl⟩ := drafts_update_byIdentifier hdrafts
    simp only [List.getElem?_map, Option.map_eq_some_iff] at hdraft hfirst hmade
    obtain ⟨id', _, rfl⟩ := hfirst
    obtain ⟨id, hid, rfl⟩ := hdraft
    obtain ⟨hname, rfl⟩ := Updater.draft_rejected rfl rfl (Row.ofSource_plain hrow) hrequest h
    refine .update rfl hrow hids (fun k call hcall => ?_) hid hname
    obtain ⟨_, _, m, ts, ⟨id, hid, rfl⟩, _, hmade⟩ := hmade k call hcall
    exact ⟨id, hid, hmade.updatesById⟩

/-- A removal that is rejected behind its first call. -/
theorem delete_interrupted {condition : Option Condition} {ordering : List OrderBy} {limit offset : Option Nat}
    (hop : op = .delete condition ordering limit offset) :
    Interrupted c updating deleting ((assemble c updating deleting).calls op store) op f := by
  have hsingle := drafts_ne_singleton hdrafts hne hdraft
  have hmade := fun (k : Nat) (call : Call)
    (hcall : ((assemble c updating deleting).calls op store)[k]? = some call) => exists_madeOf_getElem? hdrafts hcall
  subst hop
  cases deleting with
  | direct =>
    obtain ⟨cond, _, rfl⟩ := drafts_delete_direct hdrafts
    exact absurd rfl (hsingle _)
  | byIdentifier identifier resolve =>
    obtain ⟨cond, ids, rfl, hids, rfl⟩ := drafts_delete_byIdentifier hdrafts
    simp only [List.getElem?_map, Option.map_eq_some_iff] at hdraft hmade
    obtain ⟨piece, hpiece, rfl⟩ := hdraft
    obtain ⟨id, hid, hname, rfl⟩ := Deleter.draft_rejected rfl h
    refine .delete rfl hids (fun k call hcall => ?_) (eq_slice hpiece ▸ hid) hname
    obtain ⟨_, _, m, ts, ⟨piece, hpiece, rfl⟩, _, hmade⟩ := hmade k call hcall
    have hremoves := hmade.removesByIds (ne_nil_of_mem_chunksOfSucc (List.mem_of_getElem? hpiece))
    rwa [eq_slice hpiece] at hremoves

end

end Resource

/-! ## Operations that are interrupted -/

/-- Users that are added one by one. -/
def Config.singleUsers : Config := { Config.users with insertMode := .perRecord }

/-- The resource of these users. -/
def Resource.singleUsers : Resource := assemble Config.singleUsers .direct .direct

/-- Three new users, the last of whom has a number for a name. -/
def Operation.addNumber (x : Binary64) : Operation Record :=
  .insert [Dict.ofList [("name", .text "Ann")], Dict.ofList [("nick", .text "bob")], Dict.ofList [("name", .float x)]]

/-- Numbered users with a field whose name is a number. -/
def Config.rankedUsers : Config :=
  { Config.numberedUsers with fields := Dict.ofList [("id", "user_id"), ("7", "seventh")] }

/-- The resource of these users. -/
def Resource.rankedUsers : Resource :=
  assemble Config.rankedUsers (.ofIdentifier (.bare "id")) (.ofIdentifier (.bare "id"))

/-- A new value of this field for two users. -/
def Operation.rankTwo : Operation Record :=
  .update (Dict.ofList [("7", .text "first")]) (some (.inList (.bare "id") [.int 5, .int 7])) [] none

/-- The removal of two users, one of whom is named a thousand times. -/
def Operation.removeOften : Operation Record :=
  .delete (some (.inList (.bare "id") (List.replicate 1000 (.int 5) ++ [.int 7]))) [] none none

namespace Resource

/-- **What an operation has done if it is rejected**: nothing, unless it makes several statements. Then it may have been
interrupted by a record or an identifier, and has made the calls for what comes before. -/
theorem rejections_make_no_calls (c : Config) (updating deleting : Targeting) (op : Operation σ) (store : Recorder)
    {f : Failure} (h : ((assemble c updating deleting).perform op store).1 = .error f) (hf : f.kind ≠ .execution) :
    (assemble c updating deleting).calls op store = [] ∨
      Interrupted c updating deleting ((assemble c updating deleting).calls op store) op f := by
  by_cases hne : (assemble c updating deleting).calls op store = []
  · exact Or.inl hne
  · right
    rcases calls_nil_or_draft_rejected h hf with hnil | ⟨hkind, drafts, draft, hdrafts, hdraft, hrejected⟩
    · exact absurd hnil hne
    · cases hop : op with
      | select condition ordering limit offset =>
        rw [hop] at hkind
        cases hkind
      | insert records => exact hop ▸ insert_interrupted hdrafts hne hdraft hrejected hop
      | update changes condition ordering limit => exact hop ▸ update_interrupted hdrafts hne hdraft hrejected hop
      | delete condition ordering limit offset => exact hop ▸ delete_interrupted hdrafts hne hdraft hrejected hop

/-- The last of three users is rejected after the others have been added. -/
theorem addNumber_interrupted : (singleUsers.calls (.addNumber .nan) .empty).length = 2 ∧
    ∃ f, (singleUsers.perform (.addNumber .nan) .empty).1 = .error f ∧ f.kind ≠ .execution ∧
      Interrupted Config.singleUsers .direct .direct (singleUsers.calls (.addNumber .nan) .empty)
        (.addNumber .nan) f := by
  have hcalls : (singleUsers.calls (.addNumber .nan) .empty).length = 2 := by
    simp only [calls, perform, Operation.addNumber, Inserter.insert, Inserter.request_eq]
    decide +kernel
  have hperform : ∃ f, (singleUsers.perform (.addNumber .nan) .empty).1 = .error f ∧ f.kind = .invalidArgument := by
    apply exists_eq_error
    simp only [perform, Operation.addNumber, Inserter.insert, Inserter.request_eq]
    decide +kernel
  obtain ⟨f, hf, hkind⟩ := hperform
  have hreason : f.kind ≠ .execution := by
    rw [hkind]
    decide
  refine ⟨hcalls, f, hf, hreason, ?_⟩
  refine (rejections_make_no_calls Config.singleUsers .direct .direct _ .empty hf hreason).resolve_left fun hnil => ?_
  replace hnil : singleUsers.calls (.addNumber .nan) .empty = [] := hnil
  rw [hnil] at hcalls
  cases hcalls

/-- Some of the calls have been made when a number is not finite, and when an identifier is the name of a field. -/
theorem rejected_after_calls :
    (singleUsers.calls (.addNumber .nan) .empty ≠ [] ∧
      ∃ f, (singleUsers.perform (.addNumber .nan) .empty).1 = .error f ∧ f.kind = .invalidArgument) ∧
    (rankedUsers.calls .rankTwo .empty ≠ [] ∧
      ∃ f, (rankedUsers.perform .rankTwo .empty).1 = .error f ∧ f.kind = .invalidArgument) ∧
    (rankedUsers.calls .removeOften .empty ≠ [] ∧
      ∃ f, (rankedUsers.perform .removeOften .empty).1 = .error f ∧ f.kind = .invalidArgument) := by
  refine ⟨⟨?_, exists_eq_error ?_⟩, ⟨?_, exists_eq_error ?_⟩, ⟨?_, exists_eq_error ?_⟩⟩
  · rw [← List.length_pos_iff]
    simp only [calls, perform, Operation.addNumber, Inserter.insert, Inserter.request_eq]
    decide +kernel
  · simp only [perform, Operation.addNumber, Inserter.insert, Inserter.request_eq]
    decide +kernel
  · rw [← List.length_pos_iff]
    decide +kernel
  · decide +kernel
  · rw [← List.length_pos_iff]
    decide +kernel
  · decide +kernel

end Resource

end BoundSql
