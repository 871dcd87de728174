import BoundSql.Proofs.Condition.Json
import BoundSql.Record.Json

/-!
# Records as JSON objects

The JSON value of a record (`Record.jsonValue`) has its fields as members, sorted by key. A member is found under the
name of its field and nowhere else (`Record.lookup_jsonValue`), and it is converted back into the value of the field if
its doubles are finite (`Value.value_jsonValue`). It is also what is read from the text of the record
(`Record.read?_json`).
-/

namespace BoundSql

open Json (Tree insertMember)

/-! ## Values -/

namespace Value

mutual

/-- JSON value of a value; a double that is no finite number is null. -/
def jsonValue : Value → Json
  | .null => .null
  | .bool b => .bool b
  | .int n => .number (.integer n.toInt)
  | .float x => if x.isFinite then .number (.float x) else .null
  | .text s => .text s
  | .list items => .array (jsonValues items)

/-- JSON values of several values. -/
def jsonValues : List Value → List Json
  | [] => []
  | v :: vs => v.jsonValue :: jsonValues vs

end

mutual

/-- A JSON value is converted into the value that it was made of. -/
theorem value_jsonValue (v : Value) (h : ∀ x ∈ v.floats, x.isFinite) : v.jsonValue.value = .ok v := by
  cases v with
  | null => rfl
  | bool b => rfl
  | int n => rw [jsonValue, Json.value, if_pos (inInt64_toInt n), Int64.ofInt_toInt]
  | float x =>
    have hfinite : x.isFinite := h x List.mem_cons_self
    rw [jsonValue, if_pos hfinite, Json.value]
  | text s => rfl
  | list items => rw [jsonValue, Json.value, values_jsonValues items h]; rfl

theorem values_jsonValues (vs : List Value) (h : ∀ x ∈ floatsAll vs, x.isFinite) :
    Json.values (jsonValues vs) = .ok vs := by
  cases vs with
  | nil => rfl
  | cons v vs =>
    obtain ⟨hv, hvs⟩ := List.forall_mem_append.1 h
    rw [jsonValues, Json.values, value_jsonValue v hv, values_jsonValues vs hvs]
    rfl

end

mutual

/-- The JSON value of a tree that a value is written as. -/
theorem json_ofTree?_tree (v : Value) (h : ∀ x ∈ v.floats, x.isFinite → x.Rereads) (depth : Nat) :
    Json.ofTree? depth v.tree = if v.nesting ≤ depth then some v.jsonValue else none := by
  cases v with
  | null => rfl
  | bool b => rfl
  | int n => rw [tree, Json.ofTree?, Json.Number.ofText?_ofInt (inInt64_toInt n)]; rfl
  | text s => rfl
  | float x =>
    rw [tree, jsonValue]
    by_cases hfinite : x.isFinite
    · obtain ⟨n, -, hread, htree⟩ := Binary64.tree_of_rereads (h x List.mem_cons_self hfinite)
      simp [htree, Json.ofTree?, hread, nesting, hfinite]
    · simp [Binary64.tree_of_not_finite hfinite, Json.ofTree?, nesting, hfinite]
  | list items =>
    cases depth with
    | zero => simp [tree, Json.ofTree?, nesting]
    | succ depth =>
      rw [tree, Json.ofTree?, if_pos (Nat.succ_pos depth), Nat.add_sub_cancel, json_ofTrees?_trees items h, nesting]
      by_cases hdepth : nestingAll items ≤ depth <;> simp [hdepth, jsonValue]

theorem json_ofTrees?_trees (vs : List Value) (h : ∀ x ∈ floatsAll vs, x.isFinite → x.Rereads) (depth : Nat) :
    Json.ofTrees? depth (trees vs) = if nestingAll vs ≤ depth then some (jsonValues vs) else none := by
  cases vs with
  | nil => rfl
  | cons v vs =>
    obtain ⟨hv, hvs⟩ := List.forall_mem_append.1 h
    rw [trees, Json.ofTrees?, json_ofTree?_tree v hv, json_ofTrees?_trees vs hvs, nestingAll, jsonValues]
    by_cases hdepth : v.nesting ≤ depth <;> by_cases hdepths : nestingAll vs ≤ depth <;> simp [hdepth, hdepths]

end

end Value

/-! ## Members -/

/-- Members with the fields of some entries put among them. -/
def Json.insertFields (members : List (String × Json)) (entries : List (String × Value)) : List (String × Json) :=
  entries.foldl (fun ms e => insertMember e.1 e.2.jsonValue ms) members

theorem Json.lookup_cons (m : String × Json) (ms : List (String × Json)) (key : String) :
    (m :: ms).lookup key = if key = m.1 then some m.2 else ms.lookup key := by
  obtain ⟨k, j⟩ := m
  rw [List.lookup_cons]
  by_cases h : key = k
  · simp [h]
  · simp [h, beq_eq_false_iff_ne.2 h]

theorem Json.lookup_insertMember (key : String) (j : Json) (members : List (String × Json)) (other : String) :
    (insertMember key j members).lookup other = if other = key then some j else members.lookup other := by
  induction members with
  | nil => exact lookup_cons (key, j) [] other
  | cons m ms ih =>
    unfold insertMember
    split
    · exact lookup_cons (key, j) (m :: ms) other
    · split
      next hsame => subst hsame; by_cases h : other = m.1 <;> simp [lookup_cons, h]
      next hother =>
        -- the member that stays in front has another key
        by_cases h : other = m.1
        · simp [lookup_cons, h, Ne.symm hother]
        · simp [lookup_cons, h, ih]

theorem Json.lookup_insertFields {entries : List (String × Value)} (h : (entries.map Prod.fst).Nodup)
    (members : List (String × Json)) (key : String) :
    (insertFields members entries).lookup key =
      (((entries.find? (·.1 = key)).map Prod.snd).map Value.jsonValue).or (members.lookup key) := by
  induction entries generalizing members with
  | nil => rfl
  | cons e es ih =>
    obtain ⟨hnew, hrest⟩ := List.nodup_cons.1 h
    have hstep : insertFields members (e :: es) = insertFields (insertMember e.1 e.2.jsonValue members) es := rfl
    rw [hstep, ih hrest, lookup_insertMember, List.find?_cons]
    by_cases hkey : e.1 = key
    · have hnone : es.find? (·.1 = key) = none := by
        rw [List.find?_eq_none]
        intro e' he' hkey'
        exact hnew (List.mem_map.2 ⟨e', he', (of_decide_eq_true hkey').trans hkey.symm⟩)
      simp [hkey, hnone]
    · simp [hkey, Ne.symm hkey]

/-! ## Records -/

namespace Record

/-- JSON value of a record: its fields sorted by key. -/
def jsonValue (r : Record) : Json := .object (Json.insertFields [] r.entries)

/-- Doubles of a record. -/
def floats (r : Record) : List Binary64 := Value.floatsAll r.values

/-- Most brackets and braces that are open at once in the text of a record. -/
def nesting (r : Record) : Nat := Value.nestingAll r.values + 1

/-- Tree of a record. -/
def tree (r : Record) : Tree := .object (r.entries.map fun e => ⟨some e.1, e.2.tree⟩)

theorem lookup_jsonValue (r : Record) (key : String) :
    (Json.insertFields [] r.entries).lookup key = (r.get? key).map Value.jsonValue := by
  rw [Json.lookup_insertFields r.distinct, Dict.get?]
  exact Option.or_none

theorem floats_of_mem {entries : List (String × Value)} {e : String × Value} (he : e ∈ entries) {x : Binary64}
    (hx : x ∈ e.2.floats) : x ∈ Value.floatsAll (entries.map Prod.snd) := by
  induction entries with
  | nil => cases he
  | cons e' es ih =>
    rw [List.map_cons, Value.floatsAll, List.mem_append]
    rcases List.mem_cons.1 he with rfl | he
    · exact Or.inl hx
    · exact Or.inr (ih he)

/-- The object of a record answers as the record does if the doubles of the record are finite. -/
theorem field_jsonValue (r : Record) (h : ∀ x ∈ r.floats, x.isFinite) (key : String) :
    FieldSource.field r.jsonValue key = FieldSource.field r key := by
  show FieldSource.jsonField r.jsonValue key = FieldSource.found key (r.get? key)
  rw [jsonValue, FieldSource.jsonField, lookup_jsonValue]
  cases hget : r.get? key with
  | none => rfl
  | some v =>
    obtain ⟨e, he, rfl⟩ := Option.map_eq_some_iff.1 hget
    exact Value.value_jsonValue _ fun x hx => h x (floats_of_mem (List.mem_of_find?_eq_some he) hx)

theorem spells_tree (r : Record) (h : ∀ x ∈ r.floats, x.isFinite → x.Rereads) : Json.Spells r.json r.tree := by
  refine Json.spells_object (List.forall₂_map_left_iff.2 (List.forall₂_map_right_iff.2 (List.forall₂_same.2 ?_)))
  intro e he
  exact Json.spellsMember e.1 (Value.spells_tree e.2 fun x hx => h x (floats_of_mem he hx))

theorem ofMembers?_tree (entries : List (String × Value))
    (h : ∀ x ∈ Value.floatsAll (entries.map Prod.snd), x.isFinite → x.Rereads) (depth : Nat)
    (done : List (String × Json)) :
    Json.ofMembers? depth done (entries.map fun e => ⟨some e.1, e.2.tree⟩) =
      if Value.nestingAll (entries.map Prod.snd) ≤ depth then some (Json.insertFields done entries) else none := by
  induction entries generalizing done with
  | nil => rfl
  | cons e es ih =>
    obtain ⟨hv, hvs⟩ := List.forall_mem_append.1 h
    have hvalue := Value.json_ofTree?_tree e.2 hv depth
    by_cases hdepth : e.2.nesting ≤ depth
    · rw [if_pos hdepth] at hvalue
      simp only [List.map_cons, Json.ofMembers?, hvalue, ih hvs, Value.nestingAll]
      by_cases hdepths : Value.nestingAll (es.map Prod.snd) ≤ depth <;> simp [hdepth, hdepths, Json.insertFields]
    · rw [if_neg hdepth] at hvalue
      simp [Json.ofMembers?, hvalue, Value.nestingAll, hdepth]

/-- **The text of a record is read as its JSON value**, if it is not too deep for the reader. -/
theorem read?_json (r : Record) (h : ∀ x ∈ r.floats, x.isFinite → x.Rereads) :
    Json.read? r.json = if r.nesting ≤ Tree.depthLimit then some r.jsonValue else none := by
  have hnesting : r.nesting ≤ Tree.depthLimit ↔ Value.nestingAll (r.entries.map Prod.snd) ≤ Tree.depthLimit - 1 :=
    (Nat.le_sub_iff_add_le (by decide)).symm
  rw [Json.read?, (r.spells_tree h).read?, Option.bind_some, tree, Json.ofTree?, if_pos (by decide),
    ofMembers?_tree r.entries h]
  by_cases hdepth : Value.nestingAll (r.entries.map Prod.snd) ≤ Tree.depthLimit - 1
  · rw [if_pos (hnesting.2 hdepth), if_pos hdepth]
    rfl
  · rw [if_neg (mt hnesting.1 hdepth), if_neg hdepth]
    rfl

end Record

end BoundSql
