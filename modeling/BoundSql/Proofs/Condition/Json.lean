import BoundSql.Condition.Json
import BoundSql.Proofs.Json.Tree

/-!
# Conditions are read back from JSON

The text of a value, a field, a term or a condition spells a tree (`Condition.spells_tree`), and from that tree it is
read again, as long as no more containers are open around each other than the reader allows
(`Condition.ofTree?_tree`). No kind of value is taken for another: numbers are told from texts by their quotes, and
integers from doubles by how they are written.

What is not kept are the doubles that are no finite numbers: they come back as missing values (`finiteOnly`). That a
finite double is the number read from its own text is `Binary64.Rereads`.
-/

namespace BoundSql

open Json (Tree Spells spells_array spells_object spellsMember)

/-! ## Doubles -/

/-- Number that a text is, if it is one number and nothing else. -/
def Json.Number.read? (text : String) : Option Json.Number :=
  match Json.Token.scan? text.toList with
  | some [.number n] => Json.Number.ofText? n
  | _ => none

/-- Whether the text of a double is one number, which is read as this double and not as an integer. -/
def Binary64.Rereads (x : Binary64) : Prop := Json.Number.read? (Json.layout.text x) = some (.float x)

instance (x : Binary64) : Decidable x.Rereads := inferInstanceAs (Decidable (_ = _))

/-- Tree of a double: the number as it is written, or nothing. -/
def Binary64.tree (x : Binary64) : Tree :=
  match Json.Token.scan? (Json.layout.text x).toList with
  | some [.number n] => .number n
  | _ => .null

theorem Binary64.tree_of_rereads {x : Binary64} (h : x.Rereads) :
    ∃ n, Json.Token.scan? (Json.layout.text x).toList = some [.number n] ∧ Json.Number.ofText? n = some (.float x) ∧
      x.tree = .number n := by
  unfold Binary64.Rereads Json.Number.read? at h
  split at h
  next n hscan => exact ⟨n, hscan, h, by rw [Binary64.tree, hscan]⟩
  next => cases h

/-- A double that is no finite number is written as nothing. -/
theorem Binary64.text_of_not_finite {x : Binary64} (h : ¬x.isFinite) : Json.layout.text x = "null" := by
  cases x with
  | nan => rfl
  | infinity negative => cases negative <;> rfl
  | finite => exact absurd rfl h

theorem Binary64.tree_of_not_finite {x : Binary64} (h : ¬x.isFinite) : x.tree = .null := by
  rw [Binary64.tree, Binary64.text_of_not_finite h]
  rfl

/-! ## Values -/

namespace Value

mutual

/-- The value with nothing in place of each double that is no finite number. -/
def finiteOnly : Value → Value
  | .null => .null
  | .bool b => .bool b
  | .int n => .int n
  | .float x => if x.isFinite then .float x else .null
  | .text s => .text s
  | .list items => .list (finiteOnlyAll items)

/-- Several values without the doubles that are no finite numbers. -/
def finiteOnlyAll : List Value → List Value
  | [] => []
  | v :: vs => v.finiteOnly :: finiteOnlyAll vs

end

mutual

/-- Doubles of a value. -/
def floats : Value → List Binary64
  | .float x => [x]
  | .list items => floatsAll items
  | _ => []

/-- Doubles of several values. -/
def floatsAll : List Value → List Binary64
  | [] => []
  | v :: vs => v.floats ++ floatsAll vs

end

mutual

/-- Most brackets that are open at once in the text of a value. -/
def nesting : Value → Nat
  | .list items => nestingAll items + 1
  | _ => 0

/-- Most brackets that are open at once in the texts of several values. -/
def nestingAll : List Value → Nat
  | [] => 0
  | v :: vs => max v.nesting (nestingAll vs)

end

mutual

/-- Tree of a value. -/
def tree : Value → Tree
  | .null => .null
  | .bool b => .bool b
  | .int n => .number (.ofInt n.toInt)
  | .float x => x.tree
  | .text s => .text (some s)
  | .list items => .array (trees items)

/-- Trees of several values. -/
def trees : List Value → List Tree
  | [] => []
  | v :: vs => v.tree :: trees vs

end

mutual

theorem spells_tree (v : Value) (h : ∀ x ∈ v.floats, x.isFinite → x.Rereads) : Spells v.json v.tree := by
  cases v with
  | null => exact Json.spells_null
  | bool b => exact Json.spells_bool b
  | int n => exact Json.spells_int n.toInt
  | text s => exact Json.spells_quote s
  | list items => exact spells_array (spells_trees items h)
  | float x =>
    rw [json, tree]
    by_cases hfinite : x.isFinite
    · obtain ⟨n, hscan, -, htree⟩ := Binary64.tree_of_rereads (h x List.mem_cons_self hfinite)
      rw [htree]
      exact .number hscan
    · rw [Binary64.tree_of_not_finite hfinite, Binary64.text_of_not_finite hfinite]
      exact Json.spells_null

theorem spells_trees (vs : List Value) (h : ∀ x ∈ floatsAll vs, x.isFinite → x.Rereads) :
    List.Forall₂ Spells (jsonAll vs) (trees vs) := by
  cases vs with
  | nil => exact .nil
  | cons v vs =>
    obtain ⟨hv, hvs⟩ := List.forall_mem_append.1 h
    exact .cons (spells_tree v hv) (spells_trees vs hvs)

end

theorem ofNumber_ofInt (n : Int64) : (Json.Number.ofText? (.ofInt n.toInt)).map ofNumber = some (.int n) := by
  have hfits : inInt64 n.toInt := by
    simp only [inInt64, Bool.and_eq_true, decide_eq_true_eq]
    exact ⟨n.minValue_le_toInt, n.toInt_le⟩
  rw [Json.Number.ofText?_ofInt hfits, Option.map_some, ofNumber, if_pos hfits, Int64.ofInt_toInt]

mutual

/-- A value is read from its tree if it may be as deep as it is. -/
theorem ofTree?_tree (v : Value) (h : ∀ x ∈ v.floats, x.isFinite → x.Rereads) (depth : Nat) :
    ofTree? depth v.tree = if v.nesting ≤ depth then some v.finiteOnly else none := by
  cases v with
  | null => rfl
  | bool b => rfl
  | int n => exact ofNumber_ofInt n
  | text s => rfl
  | float x =>
    rw [tree, finiteOnly]
    by_cases hfinite : x.isFinite
    · obtain ⟨n, -, hread, htree⟩ := Binary64.tree_of_rereads (h x List.mem_cons_self hfinite)
      simp [htree, ofTree?, hread, ofNumber, nesting, hfinite]
    · simp [Binary64.tree_of_not_finite hfinite, ofTree?, nesting, hfinite]
  | list items =>
    cases depth with
    | zero => simp [tree, ofTree?, nesting]
    | succ depth =>
      rw [tree, ofTree?, if_pos (Nat.succ_pos depth), Nat.add_sub_cancel, ofTrees?_trees items h, nesting]
      by_cases hdepth : nestingAll items ≤ depth <;> simp [hdepth, finiteOnly]

theorem ofTrees?_trees (vs : List Value) (h : ∀ x ∈ floatsAll vs, x.isFinite → x.Rereads) (depth : Nat) :
    ofTrees? depth (trees vs) = if nestingAll vs ≤ depth then some (finiteOnlyAll vs) else none := by
  cases vs with
  | nil => rfl
  | cons v vs =>
    obtain ⟨hv, hvs⟩ := List.forall_mem_append.1 h
    rw [trees, ofTrees?, ofTree?_tree v hv, ofTrees?_trees vs hvs, nestingAll, finiteOnlyAll]
    by_cases hdepth : v.nesting ≤ depth <;> by_cases hdepths : nestingAll vs ≤ depth <;> simp [hdepth, hdepths]

end

end Value

/-! ## Fields -/

namespace FieldRef

/-- Tree of a reference; a missing qualifier is left out. -/
def tree (f : FieldRef) : Tree :=
  .object ((f.entity.map fun entity => ⟨some "entity", .text (some entity)⟩).toList ++
    [⟨some "field", .text (some f.field)⟩])

theorem spells_tree (f : FieldRef) : Spells f.json f.tree := by
  obtain ⟨entity, field⟩ := f
  have hfield : Json.SpellsMember (Json.memberText "field" (Json.quote field)) ⟨some "field", .text (some field)⟩ :=
    spellsMember "field" (Json.spells_quote field)
  cases entity with
  | none => exact spells_object (.cons hfield .nil)
  | some entity => exact spells_object (.cons (spellsMember "entity" (Json.spells_quote entity)) (.cons hfield .nil))

theorem ofTree?_tree (f : FieldRef) (depth : Nat) : ofTree? depth f.tree = if 1 ≤ depth then some f else none := by
  obtain ⟨entity, field⟩ := f
  cases depth with
  | zero => rfl
  | succ depth => cases entity <;> rfl

end FieldRef

/-! ## Terms and conditions -/

mutual

/-- The term with nothing in place of each double that is no finite number. -/
def Term.finiteOnly : Term → Term
  | .literal v => .literal v.finiteOnly
  | .field f => .field f
  | .condition c => .condition c.finiteOnly

/-- The condition with nothing in place of each double that is no finite number. -/
def Condition.finiteOnly : Condition → Condition
  | ⟨operator, terms, negated⟩ => ⟨operator, Term.finiteOnlyAll terms, negated⟩

/-- Several terms without the doubles that are no finite numbers. -/
def Term.finiteOnlyAll : List Term → List Term
  | [] => []
  | t :: ts => t.finiteOnly :: Term.finiteOnlyAll ts

end

mutual

/-- Doubles of a term. -/
def Term.floats : Term → List Binary64
  | .literal v => v.floats
  | .field _ => []
  | .condition c => c.floats

/-- Doubles of a condition. -/
def Condition.floats : Condition → List Binary64
  | ⟨_, terms, _⟩ => Term.floatsAll terms

/-- Doubles of several terms. -/
def Term.floatsAll : List Term → List Binary64
  | [] => []
  | t :: ts => t.floats ++ Term.floatsAll ts

end

mutual

/-- Most brackets and braces that are open at once in the text of a term. -/
def Term.nesting : Term → Nat
  | .literal v => v.nesting + 1
  | .field _ => 2
  | .condition c => c.nesting + 1

/-- Most brackets and braces that are open at once in the text of a condition. -/
def Condition.nesting : Condition → Nat
  | ⟨_, terms, _⟩ => Term.nestingAll terms + 2

/-- Most brackets and braces that are open at once in the texts of several terms. -/
def Term.nestingAll : List Term → Nat
  | [] => 0
  | t :: ts => max t.nesting (Term.nestingAll ts)

end

mutual

/-- Tree of a term. -/
def Term.tree : Term → Tree
  | .literal v => .object [⟨some "literal", v.tree⟩]
  | .field f => .object [⟨some "field", f.tree⟩]
  | .condition c => .object [⟨some "expression", c.tree⟩]

/-- Tree of a condition. -/
def Condition.tree : Condition → Tree
  | ⟨operator, terms, negated⟩ =>
    .object [⟨some "kind", .text (some operator.name)⟩, ⟨some "terms", .array (Term.trees terms)⟩,
      ⟨some "negated", .bool negated⟩]

/-- Trees of several terms. -/
def Term.trees : List Term → List Tree
  | [] => []
  | t :: ts => t.tree :: Term.trees ts

end

mutual

theorem Term.spells_tree (t : Term) (h : ∀ x ∈ t.floats, x.isFinite → x.Rereads) : Spells t.json t.tree := by
  cases t with
  | literal v => exact spells_object (.cons (spellsMember "literal" (v.spells_tree h)) .nil)
  | field f => exact spells_object (.cons (spellsMember "field" f.spells_tree) .nil)
  | condition c => exact spells_object (.cons (spellsMember "expression" (Condition.spells_tree c h)) .nil)

/-- The text of a condition spells its tree. -/
theorem Condition.spells_tree (c : Condition) (h : ∀ x ∈ c.floats, x.isFinite → x.Rereads) :
    Spells c.json c.tree := by
  obtain ⟨operator, terms, negated⟩ := c
  exact spells_object (.cons (spellsMember "kind" (Json.spells_quote operator.name))
    (.cons (spellsMember "terms" (spells_array (Term.spells_trees terms h)))
      (.cons (spellsMember "negated" (Json.spells_bool negated)) .nil)))

theorem Term.spells_trees (ts : List Term) (h : ∀ x ∈ Term.floatsAll ts, x.isFinite → x.Rereads) :
    List.Forall₂ Spells (Term.jsonAll ts) (Term.trees ts) := by
  cases ts with
  | nil => exact .nil
  | cons t ts =>
    obtain ⟨ht, hts⟩ := List.forall_mem_append.1 h
    exact .cons (Term.spells_tree t ht) (Term.spells_trees ts hts)

end

theorem Condition.fields?_tree (operator : Operator) (terms : List Term) (negated : Bool) :
    ∃ fields, (Condition.tree ⟨operator, terms, negated⟩).fields? ["kind", "terms", "negated"] = some fields ∧
      fields "kind" = some (.text (some operator.name)) ∧ fields "terms" = some (.array (Term.trees terms)) ∧
      fields "negated" = some (.bool negated) :=
  ⟨_, rfl, rfl, rfl, rfl⟩

mutual

theorem Term.ofTree?_tree (t : Term) (h : ∀ x ∈ t.floats, x.isFinite → x.Rereads) (depth : Nat) :
    Term.ofTree? depth t.tree = if t.nesting ≤ depth then some t.finiteOnly else none := by
  cases depth with
  | zero => cases t <;> simp [Term.ofTree?, Term.nesting]
  | succ depth =>
    cases t with
    | literal v =>
      have hv := v.ofTree?_tree h depth
      by_cases hdepth : v.nesting ≤ depth <;>
        simp [Term.tree, Term.ofTree?, Term.nesting, Term.finiteOnly, hv, hdepth]
    | field f =>
      have hf := f.ofTree?_tree depth
      by_cases hdepth : 1 ≤ depth <;>
        simp [Term.tree, Term.ofTree?, Term.nesting, Term.finiteOnly, hf, hdepth]
    | condition c =>
      have hc := Condition.ofTree?_tree c h depth
      by_cases hdepth : c.nesting ≤ depth <;>
        simp [Term.tree, Term.ofTree?, Term.nesting, Term.finiteOnly, hc, hdepth]

/-- A condition is read from its tree if it may be as deep as it is. -/
theorem Condition.ofTree?_tree (c : Condition) (h : ∀ x ∈ c.floats, x.isFinite → x.Rereads) (depth : Nat) :
    Condition.ofTree? depth c.tree = if c.nesting ≤ depth then some c.finiteOnly else none := by
  obtain ⟨operator, terms, negated⟩ := c
  obtain ⟨fields, hfields, hkind, hterms, hnegated⟩ := Condition.fields?_tree operator terms negated
  have hoperator (depth : Nat) : Operator.ofTree? depth (.text (some operator.name)) = some operator :=
    Operator.ofName?_name operator
  -- the object takes one level, and the array of its terms another, even when it is empty
  match depth with
  | 0 => simp [Condition.ofTree?, Condition.nesting]
  | 1 => simp [Condition.ofTree?, Condition.nesting, hfields, hkind, hterms, Term.listOfTree?]
  | depth + 2 =>
    have hlist := Term.mapM_ofTree?_trees terms h depth
    by_cases hdepth : Term.nestingAll terms ≤ depth <;>
      simp [Condition.ofTree?, Condition.nesting, Condition.finiteOnly, Term.listOfTree?, Tree.bool?, hfields, hkind,
        hterms, hnegated, hoperator, hlist, hdepth]

theorem Term.mapM_ofTree?_trees (ts : List Term) (h : ∀ x ∈ Term.floatsAll ts, x.isFinite → x.Rereads)
    (depth : Nat) :
    (Term.trees ts).mapM (Term.ofTree? depth) =
      if Term.nestingAll ts ≤ depth then some (Term.finiteOnlyAll ts) else none := by
  cases ts with
  | nil => rfl
  | cons t ts =>
    obtain ⟨ht, hts⟩ := List.forall_mem_append.1 h
    rw [Term.trees, List.mapM_cons, Term.ofTree?_tree t ht, Term.mapM_ofTree?_trees ts hts, Term.nestingAll,
      Term.finiteOnlyAll]
    by_cases hdepth : t.nesting ≤ depth <;> by_cases hdepths : Term.nestingAll ts ≤ depth <;>
      simp [hdepth, hdepths]

end

/-- **Round trip.** A condition that is not too deep for the reader comes back from its text, each double that is no
finite number as a missing value and all else as it was; a deeper one is not read. -/
theorem Condition.readJson?_json (c : Condition) (h : ∀ x ∈ c.floats, x.isFinite → x.Rereads) :
    Condition.readJson? c.json = if c.nesting ≤ Tree.depthLimit then some c.finiteOnly else none := by
  rw [Condition.readJson?, (c.spells_tree h).read?, Option.bind_some, c.ofTree?_tree h]

/-- Numbers of both kinds, their text, lists within lists, and conditions within conditions. -/
def Condition.manyKinds : Condition :=
  let numbers := [.int 1, .float (Binary64.ofInt 1), .text "1", .float (Binary64.ofRatio true 1 10), .float .nan]
  ⟨.or, [.condition ⟨.in, [.field ⟨some "t", "a"⟩, .literal (.list (.list [] :: .list [.null, .bool true] :: numbers))],
    true⟩, .field ⟨none, "a\n\x22"⟩], false⟩

/-- What is read from the text of these: the last number is missing. -/
def Condition.manyKindsRead : Condition :=
  let numbers := [.int 1, .float (Binary64.ofInt 1), .text "1", .float (Binary64.ofRatio true 1 10), .null]
  ⟨.or, [.condition ⟨.in, [.field ⟨some "t", "a"⟩, .literal (.list (.list [] :: .list [.null, .bool true] :: numbers))],
    true⟩, .field ⟨none, "a\n\x22"⟩], false⟩

theorem Condition.readJson?_manyKinds :
    (∀ x ∈ Condition.manyKinds.floats, x.isFinite → x.Rereads) ∧
      Condition.manyKinds.nesting ≤ Tree.depthLimit ∧
      Condition.readJson? Condition.manyKinds.json = some Condition.manyKindsRead := by
  have hfloats : ∀ x ∈ Condition.manyKinds.floats, x.isFinite → x.Rereads := by decide +kernel
  have hnesting : Condition.manyKinds.nesting ≤ Tree.depthLimit := by decide +kernel
  have hone : (Binary64.ofInt 1).isFinite := by decide +kernel
  have htenth : (Binary64.ofRatio true 1 10).isFinite := by decide +kernel
  have hread : Condition.manyKinds.finiteOnly = Condition.manyKindsRead := by
    simp only [Condition.manyKinds, Condition.manyKindsRead, Condition.finiteOnly, Term.finiteOnlyAll, Term.finiteOnly,
      Value.finiteOnly, Value.finiteOnlyAll, hone, htenth, if_true]
    rfl
  rw [Condition.readJson?_json _ hfloats, if_pos hnesting, hread]
  exact ⟨hfloats, hnesting, rfl⟩

end BoundSql
