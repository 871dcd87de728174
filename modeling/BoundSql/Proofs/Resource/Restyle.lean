import BoundSql.Proofs.Bindings.Restyle
import BoundSql.Proofs.Resource.Walks
import BoundSql.Proofs.Sql.Readable

/-!
# The style of placeholders makes no difference

Two resources that differ in the style of their placeholders answer every operation alike, under the same answers of
their stores, and make the same calls but for the texts of the placeholders, which are those of the other style for the
same positions (`Resource.restyled_alike`).

The drafts of the second resource are those of the first with their bindings written anew (`Resource.drafts_restyled`).
Writers over the two bindings correspond (`Context.writer_restyled`), so a draft is written under both styles or under
neither, and the stores are asked alike.
-/

namespace BoundSql

open Sql (Token Context)
open Placeholder (Style)
open Recorder (Request)

variable {made style : Style} {fields : FieldMap} {m : Bindings}

/-! ## Texts -/

/-- A token with its placeholder in another style: that of the argument at the same position. -/
def Sql.Token.restyled? (style : Style) (args : List Value) : Token → Option Token
  | .placeholder text => (style.restyled? args text).map .placeholder
  | t => some t

/-- Texts that become equal when every placeholder of the first is replaced by that of a style for its position. -/
def Sql.RestyledText (style : Style) (args : List Value) (sql sql' : String) : Prop :=
  ∃ ts ts', Sql.scan sql.toList = some ts ∧ sql = Sql.render ts ∧
    List.Forall₂ (fun t t' => t.restyled? style args = some t') ts ts' ∧ sql' = Sql.render ts'

namespace Sql

/-- A token that can be read back, and the same token in another style. -/
def Token.RestyledTo (style : Style) (args : List Value) (t t' : Token) : Prop :=
  t.Readable ∧ t.restyled? style args = some t'

theorem restyledTo_of_plain {args : List Value} {ts : List Token} (h : Plain ts) :
    List.Forall₂ (Token.RestyledTo style args) ts ts := by
  refine List.forall₂_same.2 fun t ht => ⟨(styled_of_plain h t ht).readable, ?_⟩
  have hplain := h t ht
  cases t with
  | placeholder text => cases hplain
  | _ => rfl

theorem boundTokens_restyled (hm : m.OfScheme made.scheme) (style : Style) (v : Value) :
    Related Eq (List.Forall₂ (Token.RestyledTo style m.args)) (boundTokens m v)
      (boundTokens (m.restyled style) v) := by
  unfold boundTokens
  split
  · exact .ok (restyledTo_of_plain (plain_singleton rfl))
  · cases hv : m.placeholderFor? v with
    | none =>
      rw [Bindings.placeholderFor?_restyled, Option.map_eq_none_iff.1 hv]
      exact .error rfl
    | some token =>
      obtain ⟨token', htoken, hv'⟩ := hm.exists_restyled style hv
      rw [hv']
      have hreadable : (Token.placeholder token).Styled := hm.styled.ofStyle hv
      exact .ok (.cons ⟨hreadable.readable, congrArg (Option.map Token.placeholder) htoken⟩ .nil)

/-- **Writers over the same values under two styles correspond.** -/
theorem Context.writer_restyled (hm : m.OfScheme made.scheme) (style : Style) (fields : FieldMap) :
    (writer ⟨m, fields⟩).Corresponds (writer ⟨m.restyled style, fields⟩) Eq Eq (Token.RestyledTo style m.args) where
  shaped := .eq
  failure _ := rfl
  token t ht := by
    have h : List.Forall₂ (Token.RestyledTo style m.args) [t] [t] := restyledTo_of_plain (plain_singleton ht)
    exact (List.forall₂_cons.1 h).1
  scalar v v' h := by
    subst h
    have hbound := boundTokens_restyled hm style v
    unfold writer scalarTokens
    dsimp only
    split
    · exact .ok (restyledTo_of_plain (nameTokens_plain _))
    · exact hbound

theorem restyledText_of_forall₂ {args : List Value} {ts ts' : List Token}
    (h : List.Forall₂ (Token.RestyledTo style args) ts ts') : RestyledText style args (render ts) (render ts') := by
  have hreadable : ∀ t ∈ ts, t.Readable := by
    induction h with
    | nil => exact nofun
    | cons ht _ ih => exact List.forall_mem_cons.2 ⟨ht.1, ih⟩
  exact ⟨ts, ts', scan_render hreadable, rfl, h.imp fun _ _ h => h.2, rfl⟩

end Sql

/-! ## Drafts -/

/-- Requests with the same arguments, whose texts differ in the style of their placeholders. -/
def Recorder.Request.Restyled (style : Style) (r r' : Request) : Prop :=
  r'.args = r.args ∧ Sql.RestyledText style r.args r.sql r'.sql

theorem Statement.bound_restyled (made style : Style) (fields : FieldMap) (s : Statement) :
    s.bound style fields = (s.bound made fields).restyled style := by
  have hrows : (Binder.ofStyle style).bindScalars .empty s.rowScalars =
      ((Binder.ofStyle made).bindScalars .empty s.rowScalars).restyled style := by
    have hwalk := Binder.bindScalars_restyled made style [] .empty s.rowScalars
    rw [Bindings.restyled_empty] at hwalk
    exact hwalk
  unfold bound
  rw [hrows]
  rcases (Binder.ofStyle made).bindScalars .empty s.rowScalars with ⟨m, _ | f⟩
  · exact Binder.bindScalars_restyled made style fields.fields m _
  · rfl

namespace Draft

/-- The same draft with its values bound under another style. -/
def restyled (style : Style) (d : Draft) : Draft := { d with values := d.values.restyled style }

variable {d d' : Draft}

theorem Walked.eq_restyled (h : d.Walked made fields) (h' : d'.Walked style fields) (hs : d'.statement = d.statement) :
    d' = d.restyled style := by
  obtain ⟨hfields, hvalues⟩ := h
  obtain ⟨hfields', hvalues'⟩ := h'
  obtain ⟨statement, _, _⟩ := d
  obtain ⟨_, _, _⟩ := d'
  dsimp only at hfields hvalues hfields' hvalues' hs
  subst hs hfields hfields' hvalues hvalues'
  unfold restyled
  rw [Statement.bound_restyled made style]

/-- **A draft is written under both styles or under neither.** -/
theorem Walked.request_restyled (h : d.Walked made fields) (style : Style) :
    Related Eq (Request.Restyled style) d.request (d.restyled style).request := by
  obtain ⟨-, hvalues⟩ := h
  have hm : ∀ m, d.values = ⟨m, none⟩ → m.OfScheme made.scheme :=
    fun m hbound => Statement.ofScheme_of_bound (hvalues.symm.trans hbound)
  unfold request restyled
  generalize d.values = values at hm
  rcases values with ⟨m, _ | f⟩
  · have hm := hm m rfl
    have hunits := d.statement.units_related (Context.writer_restyled hm style d.fields)
      (fun v v' h => h ▸ Sql.boundTokens_restyled hm style v) d.fields d.statement d.statement.matches_self
    refine hunits.map fun ts ts' hts => ⟨Bindings.args_restyled style m, Sql.restyledText_of_forall₂ hts⟩
  · exact .error rfl

end Draft

/-! ## Stores that answer alike -/

namespace Recorder

/-- The same answers are still to be given. -/
def SameScript (store store' : Recorder) : Prop := store.rows = store'.rows ∧ store.outcomes = store'.outcomes

/-- The same answer, and stores that go on to answer alike. -/
def Agree {α : Type} (x y : Except Failure α × Recorder) : Prop := x.1 = y.1 ∧ x.2.SameScript y.2

variable {α : Type} {store store' : Recorder}

theorem Agree.map {β : Type} {x y : Except Failure α × Recorder} (h : Agree x y)
    (f : Except Failure α → Except Failure β) : Agree (x.map f id) (y.map f id) :=
  ⟨congrArg f h.1, h.2⟩

theorem query_agree (h : store.SameScript store') (sql sql' : String) (args args' : List Value) :
    Agree (store.query sql args) (store'.query sql' args') :=
  ⟨congrArg (answer []) h.1, congrArg List.tail h.1, h.2⟩

theorem execute_agree (h : store.SameScript store') (sql sql' : String) (args args' : List Value) :
    Agree (store.execute sql args) (store'.execute sql' args') :=
  ⟨congrArg (answer (⟨1, none⟩ : Outcome)) h.2, h.1, congrArg List.tail h.2⟩

variable {S : Request → Request → Prop}

/-- Changes that can be prepared together are answered alike. -/
theorem executeEach_agree {prepare prepare' : α → Except Failure Request}
    (h : ∀ item, Related Eq S (prepare item) (prepare' item)) (hscript : store.SameScript store') (items : List α) :
    Agree (executeEach prepare store items) (executeEach prepare' store' items) := by
  induction items generalizing store store' with
  | nil => exact ⟨rfl, hscript⟩
  | cons item items ih =>
    unfold executeEach
    have hitem := h item
    revert hitem
    generalize prepare item = request, prepare' item = request'
    rintro (@⟨r, r', _⟩ | hf)
    · have hexecute := execute_agree hscript r.sql r'.sql r.args r'.args
      revert hexecute
      dsimp only
      generalize store.execute r.sql r.args = x, store'.execute r'.sql r'.args = x'
      obtain ⟨answer, store⟩ := x
      obtain ⟨_, store'⟩ := x'
      rintro ⟨rfl, hnext⟩
      cases answer with
      | error f => exact ⟨rfl, hnext⟩
      | ok o => exact ⟨congrArg ((o :: ·) <$> ·) (ih hnext).1, (ih hnext).2⟩
    · exact ⟨congrArg Except.error hf, hscript⟩

end Recorder

/-! ## Parts that ask alike -/

open Recorder (Agree SameScript)

section

variable {σ : Type} [FieldSource σ] {S : Request → Request → Prop} {store store' : Recorder}
  (hscript : store.SameScript store')

include hscript

theorem Selector.select_agree {s s' : Selector} {condition : Option Condition} {ordering : List OrderBy}
    {limit offset : Option Nat}
    (h : Related Eq S (s.request condition ordering limit offset) (s'.request condition ordering limit offset)) :
    Agree (s.select condition ordering limit offset store) (s'.select condition ordering limit offset store') := by
  unfold select
  revert h
  generalize s.request condition ordering limit offset = request, s'.request condition ordering limit offset = request'
  rintro (_ | hf)
  · exact Recorder.query_agree hscript _ _ _ _
  · exact ⟨congrArg Except.error hf, hscript⟩

theorem Inserter.insert_agree {i i' : Inserter} (hfields : i'.fields = i.fields) (hmode : i'.mode = i.mode)
    (h : ∀ rows, Related Eq S (i.request rows) (i'.request rows)) (records : List σ) :
    Agree (i.insert records store) (i'.insert records store') := by
  have hbatches : i'.batches = i.batches := by unfold batches; rw [hmode]
  have hreport : i'.report = i.report := by unfold report; rw [hmode]
  unfold insert
  rw [hfields, hbatches, hreport]
  split
  · exact ⟨rfl, hscript⟩
  · cases records.mapM (Row.ofSource i.fields) with
    | error f => exact ⟨rfl, hscript⟩
    | ok rows => exact (Recorder.executeEach_agree h hscript _).map _

theorem Updater.update_agree {u u' : Updater} {source : σ} {condition : Option Condition} {ordering : List OrderBy}
    {limit : Option Nat}
    (hprepare : u'.prepare source condition ordering limit = u.prepare source condition ordering limit)
    (h : ∀ changes target, Related Eq S (u.request changes target) (u'.request changes target)) :
    Agree (u.update source condition ordering limit store) (u'.update source condition ordering limit store') := by
  unfold update
  rw [hprepare]
  cases u.prepare source condition ordering limit with
  | error f => exact ⟨rfl, hscript⟩
  | ok prepared => exact (Recorder.executeEach_agree (h prepared.1) hscript _).map _

theorem Deleter.delete_agree {d d' : Deleter} {condition : Option Condition} {ordering : List OrderBy}
    {limit offset : Option Nat}
    (hprepare : d'.prepare condition ordering limit offset = d.prepare condition ordering limit offset)
    (h : ∀ target, Related Eq S (d.request target) (d'.request target)) :
    Agree (d.delete condition ordering limit offset store) (d'.delete condition ordering limit offset store') := by
  unfold delete
  rw [hprepare]
  cases d.prepare condition ordering limit offset with
  | error f => exact ⟨rfl, hscript⟩
  | ok targets => exact (Recorder.executeEach_agree h hscript _).map _

end

/-! ## Resources -/

/-- The same configuration with placeholders of another style. -/
def Config.restyled (style : Style) (c : Config) : Config := { c with placeholders := style }

namespace Resource

variable {σ : Type} [FieldSource σ] (c : Config) (style : Style) (updating deleting : Targeting)

theorem select_restyled (condition : Option Condition) (ordering : List OrderBy) (limit offset : Option Nat) :
    (selectorOf (c.restyled style)).draft condition ordering limit offset =
      ((selectorOf c).draft condition ordering limit offset).restyled style :=
  Draft.Walked.eq_restyled (Selector.draft_walked rfl condition ordering limit offset)
    (Selector.draft_walked rfl condition ordering limit offset) rfl

theorem insert_restyled (rows : List Row) :
    (assemble (c.restyled style) updating deleting).inserter.draft rows =
      ((assemble c updating deleting).inserter.draft rows).restyled style :=
  Draft.Walked.eq_restyled (Inserter.draft_walked rfl rows) (Inserter.draft_walked rfl rows) rfl

theorem update_restyled (changes : Row) (target : Target) :
    (assemble (c.restyled style) updating deleting).updater.draft changes target =
      ((assemble c updating deleting).updater.draft changes target).restyled style :=
  Draft.Walked.eq_restyled (Updater.draft_walked rfl rfl changes target) (Updater.draft_walked rfl rfl changes target)
    rfl

theorem delete_restyled (target : Target) :
    (assemble (c.restyled style) updating deleting).deleter.draft target =
      ((assemble c updating deleting).deleter.draft target).restyled style :=
  Draft.Walked.eq_restyled (Deleter.draft_walked rfl target) (Deleter.draft_walked rfl target) rfl

theorem map_drafts {α : Type} {f f' : α → List Draft} (h : ∀ a, f' a = (f a).map (Draft.restyled style))
    (x : Except Failure α) : f' <$> x = List.map (Draft.restyled style) <$> f <$> x := by
  cases x with
  | error f => rfl
  | ok a => exact congrArg Except.ok (h a)

/-- **The drafts of an operation are the same ones with their values bound under the other style.** -/
theorem drafts_restyled (op : Operation σ) : (assemble (c.restyled style) updating deleting).drafts op =
    List.map (Draft.restyled style) <$> (assemble c updating deleting).drafts op := by
  cases op with
  | select condition ordering limit offset =>
    exact congrArg (fun d => Except.ok [d]) (select_restyled c style condition ordering limit offset)
  | insert records =>
    simp only [drafts]
    split
    · rfl
    · refine map_drafts style (fun rows => ?_) _
      rw [List.map_map]
      exact List.map_congr_left fun batch _ => insert_restyled c style updating deleting batch
  | update changes condition ordering limit =>
    refine map_drafts style (fun prepared => ?_) _
    rw [List.map_map]
    exact List.map_congr_left fun target _ => update_restyled c style updating deleting prepared.1 target
  | delete condition ordering limit offset =>
    refine map_drafts style (fun targets => ?_) _
    rw [List.map_map]
    exact List.map_congr_left fun target _ => delete_restyled c style updating deleting target

/-- The requests of an operation are written under both styles or under neither. -/
theorem requests_restyled (op : Operation σ) : List.Forall₂ (Related Eq (Request.Restyled style))
    ((assemble c updating deleting).requests op) ((assemble (c.restyled style) updating deleting).requests op) := by
  unfold requests
  rw [drafts_restyled]
  cases hdrafts : (assemble c updating deleting).drafts op with
  | error f => exact .nil
  | ok drafts =>
    have hwalked := drafts_walked c updating deleting hdrafts
    refine List.forall₂_map_left_iff.2 (List.forall₂_map_right_iff.2 (List.forall₂_map_right_iff.2 ?_))
    exact List.forall₂_same.2 fun d hd => (hwalked d hd).request_restyled style

/-! ## Runs -/

/-- **Resources that differ in the style of their placeholders answer alike**, under the same answers of their
stores. -/
theorem perform_restyled (op : Operation σ) {store store' : Recorder} (hscript : store.SameScript store') :
    Agree ((assemble c updating deleting).perform op store)
      ((assemble (c.restyled style) updating deleting).perform op store') := by
  cases op with
  | select condition ordering limit offset =>
    have hrequest := (Selector.draft_walked (s := selectorOf c) rfl condition ordering limit offset).request_restyled
      style
    rw [← select_restyled] at hrequest
    refine Agree.map ?_ _
    exact Selector.select_agree hscript hrequest
  | insert records =>
    have hrequest := fun rows =>
      (Inserter.draft_walked (i := (assemble c updating deleting).inserter) rfl rows).request_restyled style
    simp only [← insert_restyled] at hrequest
    refine Agree.map ?_ _
    exact Inserter.insert_agree hscript (by rfl) (by rfl) hrequest records
  | update changes condition ordering limit =>
    have hrequest := fun row target =>
      (Updater.draft_walked (u := (assemble c updating deleting).updater) rfl rfl row target).request_restyled style
    simp only [← update_restyled, Updater.draft_request] at hrequest
    refine Agree.map ?_ _
    exact Updater.update_agree hscript rfl hrequest
  | delete condition ordering limit offset =>
    have hrequest := fun target =>
      (Deleter.draft_walked (d := (assemble c updating deleting).deleter) rfl target).request_restyled style
    simp only [← delete_restyled] at hrequest
    refine Agree.map ?_ _
    exact Deleter.delete_agree hscript rfl hrequest

/-- Calls of the same kind with the same arguments, whose texts differ in the style of their placeholders. -/
def Call.Restyled (style : Style) (call call' : Call) : Prop :=
  call'.kind = call.kind ∧ call'.args = call.args ∧ Sql.RestyledText style call.args call.sql call'.sql

/-- **The style of placeholders makes no difference**: under the same answers of their stores, two resources that differ
in it answer every operation alike, and make the same calls one by one, but for the texts of placeholders. -/
theorem restyled_alike (op : Operation σ) {store store' : Recorder} (hscript : store.SameScript store') :
    Agree ((assemble c updating deleting).perform op store)
      ((assemble (c.restyled style) updating deleting).perform op store') ∧
    List.Forall₂ (Call.Restyled style) ((assemble c updating deleting).calls op store)
      ((assemble (c.restyled style) updating deleting).calls op store') := by
  refine ⟨perform_restyled c style updating deleting op hscript, ?_⟩
  have hrequests := requests_restyled c style updating deleting op
  rw [calls_eq, calls_eq, ← hscript.2]
  refine (Recorder.made_related hrequests).imp ?_
  rintro _ _ ⟨r, r', ⟨hargs, htext⟩, rfl, rfl⟩
  exact ⟨rfl, hargs, htext⟩

/-- An update under the other style, whose text has the checksums of its two arguments. -/
theorem renameNick_restyled : ∃ call call',
    (assemble Config.users .direct .direct).calls Operation.renameNick .empty = [call] ∧
    (assemble (Config.users.restyled .contentHash) .direct .direct).calls Operation.renameNick .empty = [call'] ∧
    Call.Restyled .contentHash call call' := by
  have hone : ((assemble Config.users .direct .direct).calls Operation.renameNick .empty).length = 1 := by
    decide +kernel
  obtain ⟨call, hcall⟩ := List.length_eq_one_iff.1 hone
  have hscript : Recorder.empty.SameScript Recorder.empty := ⟨rfl, rfl⟩
  have hcalls := (restyled_alike Config.users .contentHash .direct .direct Operation.renameNick hscript).2
  rw [hcall] at hcalls
  obtain ⟨call', rest, hrestyled, hrest, hcall'⟩ := List.forall₂_cons_left_iff.1 hcalls
  rw [List.forall₂_nil_left_iff.1 hrest] at hcall'
  exact ⟨call, call', hcall, hcall', hrestyled⟩

end Resource

end BoundSql
