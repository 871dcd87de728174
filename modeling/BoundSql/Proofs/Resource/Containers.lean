import BoundSql.Proofs.Json.Record
import BoundSql.Proofs.Resource.Drafts

/-!
# Containers of field values

Field values may be handed over as a record, a map of either kind, a JSON value, the members of a JSON object, or a
reference to any of these (`Container`). What a container holds is a map from fields to values (`Container.Holds`): a
record holds its fields in whatever order they were put in, and the JSON object of a record holds what the record does
if its doubles are finite, be it made of the record or read from its text.

An insertion or an update asks for the mapped fields only, and for nothing but their values (`Row.ofSource_congr`). So
sources of any two types lead to the same calls and the same answer if they agree on the mapped fields
(`Resource.perform_congr`), and containers do that hold the same values under them (`Resource.perform_alike`). To put
sources into containers changes nothing (`Resource.perform_contained`).
-/

namespace BoundSql

/-- Sources, be they of one type or of two, that give the same answers for the mapped fields. -/
def FieldSource.Agree {σ σ' : Type} [FieldSource σ] [FieldSource σ'] (fields : FieldMap) (source : σ) (source' : σ') :
    Prop :=
  ∀ name ∈ fields.fields, field source name = field source' name

/-- What field values may be handed over in. -/
inductive Container where
  | record (r : Record)
  | hashMap (m : Std.HashMap String Value)
  | treeMap (m : Std.TreeMap String Value)
  | json (j : Json)
  /-- The members of a JSON object. -/
  | members (ms : List (String × Json))
  | reference (c : Container)

namespace Container

/-- Value under a key. -/
def field : Container → String → Except Failure Value
  | .record r => FieldSource.field r
  | .hashMap m => FieldSource.field m
  | .treeMap m => FieldSource.field m
  | .json j => FieldSource.field j
  | .members ms => FieldSource.field (Json.object ms)
  | .reference c => c.field

/-- Whether there is something under a key. -/
def hasField : Container → String → Bool
  | .record r => FieldSource.hasField r
  | .hashMap m => FieldSource.hasField m
  | .treeMap m => FieldSource.hasField m
  | .json j => FieldSource.hasField j
  | .members ms => FieldSource.hasField (Json.object ms)
  | .reference c => c.hasField

instance : FieldSource Container where
  field := field
  hasField := hasField

/-! ## What a container holds -/

/-- Containers of the values that `content` gives to fields. -/
inductive Holds (content : String → Option Value) : Container → Prop
  | record {r : Record} (h : ∀ key, r.get? key = content key) : Holds content (.record r)
  | hashMap {m : Std.HashMap String Value} (h : ∀ key : String, m[key]? = content key) : Holds content (.hashMap m)
  | treeMap {m : Std.TreeMap String Value} (h : ∀ key : String, m[key]? = content key) : Holds content (.treeMap m)
  /-- The JSON object of a record with finite doubles. -/
  | object {r : Record} (h : ∀ key, r.get? key = content key) (finite : ∀ x ∈ r.floats, x.isFinite) :
    Holds content (.json r.jsonValue)
  /-- What is read from the text of such a record, where each double is read from its own text as itself. -/
  | text {r : Record} {j : Json} (h : ∀ key, r.get? key = content key)
    (finite : ∀ x ∈ r.floats, x.isFinite ∧ x.Rereads) (read : Json.read? r.json = some j) : Holds content (.json j)
  | members {ms : List (String × Json)} (h : Holds content (.json (.object ms))) : Holds content (.members ms)
  | reference {c : Container} (h : Holds content c) : Holds content (.reference c)

variable {content content' : String → Option Value}

theorem field_object {r : Record} (h : ∀ key, r.get? key = content key) (finite : ∀ x ∈ r.floats, x.isFinite)
    (key : String) : (json r.jsonValue).field key = FieldSource.found key (content key) := by
  rw [← h key]
  exact r.field_jsonValue finite key

/-- **A container answers with what it holds.** -/
theorem Holds.field_eq {c : Container} (hc : c.Holds content) (key : String) :
    c.field key = FieldSource.found key (content key) := by
  induction hc with
  | record h => exact congrArg (FieldSource.found key) (h key)
  | hashMap h => exact congrArg (FieldSource.found key) (h key)
  | treeMap h => exact congrArg (FieldSource.found key) (h key)
  | object h finite => exact field_object h finite key
  | @text r j h finite read =>
    rw [r.read?_json fun x hx _ => (finite x hx).2] at read
    split at read
    next =>
      cases read
      exact field_object h (fun x hx => (finite x hx).1) key
    next => cases read
  | members h ih => exact ih
  | reference h ih => exact ih

/-- Containers that hold the same values under the mapped fields. -/
def Alike (fields : FieldMap) (c c' : Container) : Prop :=
  ∃ content content', c.Holds content ∧ c'.Holds content' ∧ ∀ field ∈ fields.fields, content field = content' field

theorem Alike.agree {fields : FieldMap} {c c' : Container} (h : Alike fields c c') : FieldSource.Agree fields c c' := by
  intro name hname
  obtain ⟨content, content', hc, hc', hsame⟩ := h
  exact (hc.field_eq name).trans ((congrArg (FieldSource.found name) (hsame name hname)).trans (hc'.field_eq name).symm)

end Container

/-! ## Rows -/

namespace Row

variable {σ σ' : Type} [FieldSource σ] [FieldSource σ'] {source : σ} {source' : σ'}

theorem addCells_congr {entries : List (String × String)}
    (h : ∀ e ∈ entries, FieldSource.field source e.1 = FieldSource.field source' e.1) (row : Row) :
    addCells source row entries = addCells source' row entries := by
  induction entries generalizing row with
  | nil => rfl
  | cons e es ih =>
    obtain ⟨hfirst, hrest⟩ := List.forall_mem_cons.1 h
    have hcell : cell source e.1 = cell source' e.1 := by rw [cell, cell, hfirst]
    have hafter := ih hrest
    unfold addCells
    simp only [hcell, hafter]

/-- **The row of a source depends on its answers for the mapped fields only.** -/
theorem ofSource_congr {fields : FieldMap} (h : FieldSource.Agree fields source source') :
    ofSource fields source = ofSource fields source' :=
  addCells_congr (fun _ he => h _ (List.mem_map_of_mem he)) Dict.empty

theorem mapM_ofSource_congr {fields : FieldMap} {sources : List σ} {sources' : List σ'}
    (h : List.Forall₂ (FieldSource.Agree fields) sources sources') :
    sources.mapM (ofSource fields) = sources'.mapM (ofSource fields) := by
  induction h with
  | nil => rfl
  | cons hsource _ ih => rw [List.mapM_cons, List.mapM_cons, ofSource_congr hsource, ih]

end Row

/-! ## Operations -/

section Sources

variable {σ σ' : Type}

/-- The operation with another source in place of each of its sources. -/
def Operation.mapSources (f : σ → σ') : Operation σ → Operation σ'
  | .select condition ordering limit offset => .select condition ordering limit offset
  | .insert records => .insert (records.map f)
  | .update changes condition ordering limit => .update (f changes) condition ordering limit
  | .delete condition ordering limit offset => .delete condition ordering limit offset

theorem Operation.mapSources_id (op : Operation σ) : op.mapSources id = op := by
  cases op <;> simp [mapSources]

variable [FieldSource σ] [FieldSource σ']

namespace Resource

/-- Operations that differ in their sources only, which agree on the mapped fields. -/
inductive AgreeingOperations (r : Resource) : Operation σ → Operation σ' → Prop
  | select (condition : Option Condition) (ordering : List OrderBy) (limit offset : Option Nat) :
    AgreeingOperations r (.select condition ordering limit offset) (.select condition ordering limit offset)
  | insert {records : List σ} {records' : List σ'}
    (h : List.Forall₂ (FieldSource.Agree r.inserter.fields) records records') :
    AgreeingOperations r (.insert records) (.insert records')
  | update {changes : σ} {changes' : σ'} (h : FieldSource.Agree r.updater.fields changes changes')
    (condition : Option Condition) (ordering : List OrderBy) (limit : Option Nat) :
    AgreeingOperations r (.update changes condition ordering limit) (.update changes' condition ordering limit)
  | delete (condition : Option Condition) (ordering : List OrderBy) (limit offset : Option Nat) :
    AgreeingOperations r (.delete condition ordering limit offset) (.delete condition ordering limit offset)

theorem insert_congr {i : Inserter} {records : List σ} {records' : List σ'}
    (h : List.Forall₂ (FieldSource.Agree i.fields) records records') (store : Recorder) :
    i.insert records store = i.insert records' store := by
  have hempty : records.isEmpty = records'.isEmpty := by cases h <;> rfl
  have hrows : records.mapM (Row.ofSource i.fields) = records'.mapM (Row.ofSource i.fields) :=
    Row.mapM_ofSource_congr h
  rw [Inserter.insert, Inserter.insert, hempty, hrows]

theorem update_congr {u : Updater} {changes : σ} {changes' : σ'} (h : FieldSource.Agree u.fields changes changes')
    (condition : Option Condition) (ordering : List OrderBy) (limit : Option Nat) (store : Recorder) :
    u.update changes condition ordering limit store = u.update changes' condition ordering limit store := by
  have hrow : u.changes changes = u.changes changes' := by
    rw [Updater.changes, Updater.changes, Row.ofSource_congr h]
  have hprepared : u.prepare changes condition ordering limit = u.prepare changes' condition ordering limit := by
    cases condition with
    | none => rfl
    | some c => rw [Updater.prepare, Updater.prepare, hrow]
  rw [Updater.update, Updater.update, hprepared]

/-- **An operation asks its sources for the mapped fields only.** -/
theorem perform_congr {r : Resource} {op : Operation σ} {op' : Operation σ'} (h : r.AgreeingOperations op op')
    (store : Recorder) : r.perform op store = r.perform op' store := by
  cases h with
  | select => rfl
  | insert h => rw [perform, perform, insert_congr h]
  | update h condition ordering limit => rw [perform, perform, update_congr h]
  | delete => rfl

theorem agreeing_mapSources {τ : Type} (r : Resource) {f : τ → σ} {g : τ → σ'}
    (h : ∀ source name, FieldSource.field (f source) name = FieldSource.field (g source) name) (op : Operation τ) :
    r.AgreeingOperations (op.mapSources f) (op.mapSources g) := by
  cases op with
  | select condition ordering limit offset => exact .select condition ordering limit offset
  | insert records =>
    have hsame : List.Forall₂ (fun s s' => FieldSource.Agree r.inserter.fields (f s) (g s')) records records :=
      List.forall₂_same.2 fun source _ name _ => h source name
    exact .insert (List.forall₂_map_left_iff.2 (List.forall₂_map_right_iff.2 hsame))
  | update changes condition ordering limit => exact .update (fun name _ => h changes name) condition ordering limit
  | delete condition ordering limit offset => exact .delete condition ordering limit offset

/-- Nothing changes where each source is exchanged for one that answers alike. -/
theorem perform_mapSources (r : Resource) (f : σ → σ')
    (h : ∀ source name, FieldSource.field (f source) name = FieldSource.field source name) (op : Operation σ)
    (store : Recorder) : r.perform (op.mapSources f) store = r.perform op store := by
  have hagreeing : r.AgreeingOperations (op.mapSources f) (op.mapSources id) := r.agreeing_mapSources h op
  rw [perform_congr hagreeing store, op.mapSources_id]

end Resource

end Sources

namespace Resource

/-- **A container stands for what is in it**: to hand over records, maps, JSON values or members of JSON objects within
containers is to hand them over as they are, and so is a reference. -/
theorem perform_contained (r : Resource) (store : Recorder) :
    (∀ op : Operation Record, r.perform (op.mapSources Container.record) store = r.perform op store) ∧
      (∀ op : Operation (Std.HashMap String Value),
        r.perform (op.mapSources Container.hashMap) store = r.perform op store) ∧
      (∀ op : Operation (Std.TreeMap String Value),
        r.perform (op.mapSources Container.treeMap) store = r.perform op store) ∧
      (∀ op : Operation Json, r.perform (op.mapSources Container.json) store = r.perform op store) ∧
      (∀ op : Operation (List (String × Json)),
        r.perform (op.mapSources Container.members) store = r.perform (op.mapSources Json.object) store) ∧
      ∀ op : Operation Container, r.perform (op.mapSources Container.reference) store = r.perform op store := by
  have hmembers (ms : List (String × Json)) (name : String) :
      FieldSource.field (Container.members ms) name = FieldSource.field (Json.object ms) name := rfl
  exact ⟨fun op => r.perform_mapSources Container.record (fun _ _ => rfl) op store,
    fun op => r.perform_mapSources Container.hashMap (fun _ _ => rfl) op store,
    fun op => r.perform_mapSources Container.treeMap (fun _ _ => rfl) op store,
    fun op => r.perform_mapSources Container.json (fun _ _ => rfl) op store,
    fun op => perform_congr (r.agreeing_mapSources hmembers op) store,
    fun op => r.perform_mapSources Container.reference (fun _ _ => rfl) op store⟩

/-- Insertions and updates that differ in their containers only, which hold the same under the mapped fields. -/
inductive AlikeOperations (r : Resource) : Operation Container → Operation Container → Prop
  | insert {records records' : List Container}
    (h : List.Forall₂ (Container.Alike r.inserter.fields) records records') :
    AlikeOperations r (.insert records) (.insert records')
  | update {changes changes' : Container} (h : Container.Alike r.updater.fields changes changes')
    (condition : Option Condition) (ordering : List OrderBy) (limit : Option Nat) :
    AlikeOperations r (.update changes condition ordering limit) (.update changes' condition ordering limit)

theorem AlikeOperations.agreeing {r : Resource} {op op' : Operation Container} (h : r.AlikeOperations op op') :
    r.AgreeingOperations op op' := by
  cases h with
  | insert h => exact .insert (h.imp fun _ _ halike => halike.agree)
  | update h condition ordering limit => exact .update h.agree condition ordering limit

/-- **It does not matter what field values are handed over in.** Insertions and updates whose containers hold the same
values under the mapped fields, record by record, make the same calls and give the same answer. -/
theorem perform_alike {r : Resource} {op op' : Operation Container} (h : r.AlikeOperations op op') (store : Recorder) :
    r.perform op store = r.perform op' store ∧ r.calls op store = r.calls op' store := by
  have hperform : r.perform op store = r.perform op' store := perform_congr h.agreeing store
  exact ⟨hperform, by rw [calls, calls, hperform]⟩

end Resource

/-- A new user, with an age that is not mapped. -/
def Record.newAnn : Record :=
  Dict.ofList [("age", .int 42), ("nick", .text "Ann"), ("name", .float (Binary64.ofInt 1))]

/-- The same user with the fields in another order, and without an age. -/
def Record.sameAnn : Record := Dict.ofList [("name", .float (Binary64.ofInt 1)), ("nick", .text "Ann")]

/-- A record, and a reference to what is read from the text of another one; both are also handed over as they are. -/
theorem Resource.newAnn_alike :
    Json.read? Record.sameAnn.json = some Record.sameAnn.jsonValue ∧
      (assemble Config.users .direct .direct).AlikeOperations (.insert [.record Record.newAnn])
        (.insert [.reference (.json Record.sameAnn.jsonValue)]) ∧
      (assemble Config.users .direct .direct).perform (.insert [Container.record Record.newAnn]) .empty =
        (assemble Config.users .direct .direct).perform
          (.insert [Container.reference (.json Record.sameAnn.jsonValue)]) .empty ∧
      (assemble Config.users .direct .direct).perform (.insert [Record.newAnn]) .empty =
        (assemble Config.users .direct .direct).perform (.insert [Record.sameAnn.jsonValue]) .empty := by
  have hfloats : ∀ x ∈ Record.sameAnn.floats, x.isFinite ∧ x.Rereads := by decide +kernel
  have hnesting : Record.sameAnn.nesting ≤ Json.Tree.depthLimit := by decide
  have hread : Json.read? Record.sameAnn.json = some Record.sameAnn.jsonValue := by
    rw [Record.sameAnn.read?_json fun x hx _ => (hfloats x hx).2, if_pos hnesting]
  have hsame : ∀ field ∈ Config.users.fields.fields, Record.newAnn.get? field = Record.sameAnn.get? field :=
    List.forall_mem_cons.2 ⟨rfl, List.forall_mem_cons.2 ⟨rfl, nofun⟩⟩
  have halike : (assemble Config.users .direct .direct).AlikeOperations (.insert [.record Record.newAnn])
      (.insert [.reference (.json Record.sameAnn.jsonValue)]) :=
    .insert (.cons ⟨_, _, .record fun _ => rfl, .reference (.text (fun _ => rfl) hfloats hread), hsame⟩ .nil)
  have hperform := (perform_alike halike .empty).1
  obtain ⟨hrecord, _, _, hjson, _, hreference⟩ := perform_contained (assemble Config.users .direct .direct) .empty
  refine ⟨hread, halike, hperform, (hrecord (.insert [Record.newAnn])).symm.trans (hperform.trans ?_)⟩
  exact (hreference (.insert [.json Record.sameAnn.jsonValue])).trans (hjson (.insert [Record.sameAnn.jsonValue]))

end BoundSql
