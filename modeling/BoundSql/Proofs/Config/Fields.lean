import BoundSql.Proofs.Config.Yaml
import BoundSql.Proofs.Json.Tree
import BoundSql.Record.Json

/-!
# Repeated fields

A field map is made of pairs one by one, or read from an object or a mapping with the pairs as its entries. The first
way refuses the first field that comes again (`FieldMap.ofPairs_error`). The others put the pairs in one after the other
and refuse none, so the two agree iff no field is repeated (`FieldMap.readJson?_pairs`). Distinct fields make the same
map both ways, with the pairs as its entries, so every field map is read back from its JSON text
(`FieldMap.readJson?_written`).
-/

namespace BoundSql.FieldMap

open Json (Tree Spells)

variable {fields : FieldMap} {pairs : List (String × String)}

/-! ## Maps made one pair after the other -/

/-- Distinct fields are put in one after the other. -/
theorem addPairs_append (before rest : List (String × String)) (h : (fields.keys ++ before.map Prod.fst).Nodup) :
    fields.addPairs (before ++ rest) = (before.foldl (fun d p => d.insert p.1 p.2) fields).addPairs rest := by
  -- what is mapped and what comes next stay distinct together
  induction before generalizing fields with
  | nil => rfl
  | cons pair before ih =>
    have hnew : ¬fields.contains pair.1 := fun hmem =>
      (List.nodup_append.1 h).2.2 _ (Dict.contains_iff.1 hmem) _ List.mem_cons_self rfl
    have hkeys : (fields.insert pair.1 pair.2).keys = fields.keys ++ [pair.1] := by
      rw [Dict.keys_insert, if_neg hnew]
    rw [List.cons_append, addPairs, if_neg hnew, List.foldl_cons]
    refine ih ?_
    rwa [hkeys, List.append_assoc]

theorem ofPairs_append {before : List (String × String)} (h : (before.map Prod.fst).Nodup)
    (rest : List (String × String)) : ofPairs (before ++ rest) = addPairs (Dict.ofList before) rest :=
  addPairs_append before rest h

/-- Distinct fields are all mapped. -/
theorem ofPairs_of_nodup (h : (pairs.map Prod.fst).Nodup) : ofPairs pairs = .ok (Dict.ofList pairs) := by
  rw [← List.append_nil pairs, ofPairs_append h, addPairs, List.append_nil]

/-- Among repeated fields one is the first that comes again. -/
theorem exists_first_repeated (h : ¬(pairs.map Prod.fst).Nodup) : ∃ before field column later,
    pairs = before ++ (field, column) :: later ∧ (before.map Prod.fst).Nodup ∧ field ∈ before.map Prod.fst := by
  induction pairs using List.reverseRecOn with
  | nil => exact absurd List.nodup_nil h
  | append_singleton pairs pair ih =>
    by_cases hpairs : (pairs.map Prod.fst).Nodup
    · refine ⟨pairs, pair.1, pair.2, [], rfl, hpairs, ?_⟩
      by_contra hnew
      refine h ?_
      rw [List.map_append, List.map_singleton]
      exact List.nodup_append.2 ⟨hpairs, List.nodup_singleton _, fun a ha b hb hab =>
        hnew (List.mem_singleton.1 hb ▸ hab ▸ ha)⟩
    · obtain ⟨before, field, column, later, rfl, hbefore, hfield⟩ := ih hpairs
      exact ⟨before, field, column, later ++ [pair], by rw [List.append_assoc, List.cons_append], hbefore, hfield⟩

/-- **The first field that comes again is refused.** -/
theorem ofPairs_error (h : ¬(pairs.map Prod.fst).Nodup) : ∃ before field column later,
    pairs = before ++ (field, column) :: later ∧ (before.map Prod.fst).Nodup ∧ field ∈ before.map Prod.fst ∧
      ofPairs pairs = .error (.duplicateField field) := by
  obtain ⟨before, field, column, later, rfl, hbefore, hfield⟩ := exists_first_repeated h
  have hpresent : (Dict.ofList before).contains field := by
    rwa [Dict.contains_iff, Dict.keys_ofList, List.mem_eraseDups]
  refine ⟨before, field, column, later, rfl, hbefore, hfield, ?_⟩
  rw [ofPairs_append hbefore, addPairs, if_pos hpresent]

/-! ## Maps read from objects -/

/-- Object with the pairs as its members. -/
def treeOf (pairs : List (String × String)) : Tree := .object (pairs.map fun p => ⟨some p.1, .text (some p.2)⟩)

/-- JSON text with the pairs as its members. -/
def jsonOf (pairs : List (String × String)) : String :=
  Json.objectText (pairs.map fun p => Json.memberText p.1 (Json.quote p.2))

theorem spells_jsonOf (pairs : List (String × String)) : Spells (jsonOf pairs) (treeOf pairs) := by
  refine Json.spells_object (List.forall₂_map_left_iff.2 (List.forall₂_map_right_iff.2 ?_))
  exact List.forall₂_same.2 fun p _ => Json.spellsMember p.1 (Json.spells_quote p.2)

/-- The text with the pairs as its members is read as their object. -/
theorem read?_jsonOf (pairs : List (String × String)) : Tree.read? (jsonOf pairs) = some (treeOf pairs) :=
  (spells_jsonOf pairs).read?

/-- Members are put in one after the other. -/
theorem readJson?_of_read? {text : String} (h : Tree.read? text = some (treeOf pairs)) :
    readJson? text = some (Dict.ofList pairs) := by
  have hentries : (pairs.map fun p => (⟨some p.1, .text (some p.2)⟩ : Json.Member)).mapM
      (Dict.entryOfMember? Tree.text?) = some pairs := by
    rw [List.mapM_map]
    exact List.mapM_pure.trans (congrArg some (List.map_id pairs))
  rw [readJson?, h, Option.bind_some]
  show (_ : Option (List (String × String))).map Dict.ofList = _
  rw [hentries, Option.map_some]

/-- **A field map is read back from its JSON text**, in its order. -/
theorem readJson?_written (fields : FieldMap) : readJson? fields.json = some fields := by
  have hread := readJson?_of_read? (read?_jsonOf fields.entries)
  rwa [Dict.ofList_entries] at hread

/-- **The two ways agree iff no field is repeated.** Whatever text has the pairs as the members of its object, what is
read from it takes a repeated field's place from the first of its pairs and its column from the last, and so does what
is read from a mapping. Making a map of the pairs refuses the first field that comes again. -/
theorem readJson?_pairs (pairs : List (String × String)) (text : String)
    (h : Tree.read? text = some (treeOf pairs)) :
    (readJson? text = (ofPairs pairs).toOption ↔ (pairs.map Prod.fst).Nodup) ∧
    ((pairs.map Prod.fst).Nodup → ∃ fields, readJson? text = some fields ∧ ofPairs pairs = .ok fields ∧
      fields.entries = pairs) ∧
    (¬(pairs.map Prod.fst).Nodup → ∃ before field column later,
      pairs = before ++ (field, column) :: later ∧ (before.map Prod.fst).Nodup ∧ field ∈ before.map Prod.fst ∧
        ofPairs pairs = .error (.duplicateField field)) ∧
    ∃ fields : FieldMap, readJson? text = some fields ∧
      (∀ depth, 0 < depth → ofNode? depth (nodeOf pairs) = pure fields) ∧
      fields.fields = (pairs.map Prod.fst).eraseDups ∧ ∀ field, fields.column? field = Dict.lastValue? pairs field := by
  have hread := readJson?_of_read? h
  refine ⟨⟨fun heq => ?_, fun hdistinct => ?_⟩, fun hdistinct => ?_, ofPairs_error, Dict.ofList pairs, hread,
    fun depth hdepth => ofNode?_nodeOf pairs hdepth, Dict.keys_ofList pairs, Dict.get?_ofList pairs⟩
  · by_contra hrepeated
    obtain ⟨-, field, -, -, -, -, -, herror⟩ := ofPairs_error hrepeated
    rw [hread, herror] at heq
    cases heq
  · rw [hread, ofPairs_of_nodup hdistinct]
    rfl
  · exact ⟨Dict.ofList pairs, hread, ofPairs_of_nodup hdistinct, Dict.entries_ofList hdistinct⟩

/-- Pairs with one field twice, its last column standing in the place of its first. -/
def postPairs : List (String × String) := [("id", "ID"), ("title", "post_title"), ("id", "post_id")]

theorem readJson?_postPairs : Tree.read? (jsonOf postPairs) = some (treeOf postPairs) ∧
    (readJson? (jsonOf postPairs) = (ofPairs postPairs).toOption ↔ (postPairs.map Prod.fst).Nodup) ∧
    ∃ fields : FieldMap, readJson? (jsonOf postPairs) = some fields ∧
      fields.entries = [("id", "post_id"), ("title", "post_title")] := by
  have htree := read?_jsonOf postPairs
  obtain ⟨hiff, -, -, fields, hread, -⟩ := readJson?_pairs postPairs (jsonOf postPairs) htree
  refine ⟨htree, hiff, fields, hread, ?_⟩
  have hfields : fields = Dict.ofList postPairs := Option.some.inj (hread.symm.trans (readJson?_of_read? htree))
  rw [hfields]
  rfl

/-- An object with a repeated field is read, and the pairs that are its members are refused. -/
theorem readJson?_repeated :
    Tree.read? "\x7b\"id\":\"ID\",\"id\":\"post_id\"\x7d" = some (treeOf [("id", "ID"), ("id", "post_id")]) ∧
    readJson? "\x7b\"id\":\"ID\",\"id\":\"post_id\"\x7d" = some (Dict.ofList [("id", "post_id")]) ∧
    ofPairs [("id", "ID"), ("id", "post_id")] = .error (.duplicateField "id") := by
  have htree : Tree.read? "\x7b\"id\":\"ID\",\"id\":\"post_id\"\x7d" =
      some (treeOf [("id", "ID"), ("id", "post_id")]) := read?_jsonOf [("id", "ID"), ("id", "post_id")]
  refine ⟨htree, (readJson?_of_read? htree).trans ?_, rfl⟩
  rfl

end BoundSql.FieldMap
