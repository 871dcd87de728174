import BoundSql.Config.Yaml
import BoundSql.Proofs.Condition.Yaml
import BoundSql.Proofs.Dict
import BoundSql.Proofs.Yaml.Reader

/-!
# Configurations are read back from YAML

A configuration that passes its checks is read back from its text (`Config.read_render`), whatever its names and texts
are, if its conditions are no deeper than the reader goes and no missing number is in them.
-/

namespace BoundSql

open Yaml (Document Node Reading)
open Yaml.Node

/-! ## Field maps -/

namespace FieldMap

theorem depth_node (fields : FieldMap) : fields.node.depth ≤ 1 := by
  refine Nat.succ_le_succ (membersDepth_le.2 fun m hm => ?_)
  obtain ⟨e, -, rfl⟩ := List.mem_map.1 hm
  exact ⟨Nat.le_refl 0, Nat.le_refl 0⟩

theorem isWritten_node (fields : FieldMap) : fields.node.IsWritten := by
  refine ⟨(fun _ h => nomatch h), membersWritten_iff.2 fun m hm => ?_⟩
  obtain ⟨e, -, rfl⟩ := List.mem_map.1 hm
  exact ⟨isKey_ofText e.1, isWritten_ofText e.2⟩

/-- Node of a mapping of texts. -/
def nodeOf (pairs : List (String × String)) : Node :=
  .mapping none (pairs.map fun e => ⟨Node.ofText e.1, Node.ofText e.2⟩)

/-- Pairs are put in one after the other. -/
theorem ofNode?_nodeOf (pairs : List (String × String)) {depth : Nat} (hdepth : 0 < depth) :
    ofNode? depth (nodeOf pairs) = pure (Dict.ofList pairs) := by
  have hentries : entries? depth (nodeOf pairs) = pure (pairs.map fun e => (e.1, Node.ofText e.2)) := by
    show (if 0 < depth then _ else failure : Reading (List (String × Node))) = _
    rw [if_pos hdepth]
    exact mapM_map fun _ _ => rfl
  have hcolumns : (pairs.map fun e => (e.1, Node.ofText e.2)).mapM
      (fun e => return (e.1, ← e.2.text?) : String × Node → Reading (String × String)) =
        pure (pairs.map id) := mapM_map fun _ _ => rfl
  rw [ofNode?, hentries, pure_bind, hcolumns, pure_bind, List.map_id]

/-- **A field map is read back**, in its order. -/
theorem ofNode?_node (fields : FieldMap) {depth : Nat} (hdepth : 0 < depth) :
    ofNode? depth fields.node = pure fields := by
  have hnode := ofNode?_nodeOf fields.entries hdepth
  rwa [Dict.ofList_entries] at hnode

end FieldMap

/-! ## Tables and joins -/

namespace TableRef

/-- Members of the node of a table. -/
def members (t : TableRef) :
    List (String × Node) := ("name", Node.ofText t.name) :: Node.optionalText "alias" t.aliasName

theorem node_eq (t : TableRef) : t.node = Node.record t.members := rfl

theorem keys_members (t : TableRef) : (t.members.map Prod.fst).Sublist ["name", "alias"] :=
  (keys_optionalText "alias" t.aliasName).cons_cons "name"

theorem isWritten_node (t : TableRef) : t.node.IsWritten :=
  isWritten_record t.keys_members (by decide) fun m hm => by
    obtain rfl | hm := List.mem_cons.1 hm
    · exact isWritten_ofText t.name
    · obtain ⟨text, hm⟩ := exists_of_mem_optionalText hm
      exact hm ▸ isWritten_ofText text

theorem depth_node (t : TableRef) : t.node.depth = 1 := by
  obtain ⟨name, aliasName⟩ := t
  cases aliasName <;> rfl

/-- **A table is read back** if a collection may be open. -/
theorem ofNode?_node (t : TableRef) (depth : Nat) :
    ofNode? depth t.node = if t.node.depth ≤ depth then pure t else failure := by
  have halias : t.members.lookup "alias" = t.aliasName.map Node.ofText := by
    obtain ⟨name, aliasName⟩ := t
    cases aliasName <;> rfl
  have hname : t.members.lookup "name" = some (Node.ofText t.name) := rfl
  rw [depth_node]
  cases depth with
  | zero => rfl
  | succ depth =>
    rw [if_pos (show 1 ≤ depth + 1 from Nat.succ_pos depth), ofNode?, node_eq,
      fields?_record (Nat.succ_pos depth) false t.keys_members (by decide), pure_bind]
    dsimp only
    rw [hname, halias, maybe?_ofText]
    rfl

end TableRef

namespace Join

/-- Members of the node of a join. -/
def members (j : Join) : List (String × Node) :=
  [("kind", Node.word j.kind.name), ("table", j.table.node), ("on", j.condition.node)]

theorem node_eq (j : Join) : j.node = Node.record j.members := rfl

theorem keys_members (j : Join) : (j.members.map Prod.fst).Sublist ["kind", "table", "on"] := List.Sublist.refl _

theorem isWritten_node (j : Join) : j.node.IsWritten :=
  isWritten_record j.keys_members (by decide) fun m hm => by
    simp only [List.mem_cons, List.not_mem_nil, or_false] at hm
    obtain rfl | rfl | rfl := hm
    · exact isWritten_word (by cases j.kind <;> decide)
    · exact j.table.isWritten_node
    · exact j.condition.isWritten_node

theorem depth_node (j : Join) : j.node.depth = j.condition.node.depth + 1 := by
  have hcondition : 1 ≤ j.condition.node.depth := by
    rw [Condition.depth_node]
    exact Nat.succ_pos _
  simp [node, Node.record, Node.depth, membersDepth, memberDepth, Node.word, TableRef.depth_node, hcondition]

/-- **A join without a missing number is read back** if it may be as deep as it is. -/
theorem ofNode?_node (j : Join) (hnan : ∀ x ∈ j.condition.floats, x ≠ .nan) (depth : Nat) :
    ofNode? depth j.node = if j.node.depth ≤ depth then pure j else failure := by
  have hkind : (liftM (JoinKind.ofName? j.kind.name) : Reading JoinKind) = pure j.kind := by
    cases j.kind <;> rfl
  rw [depth_node]
  cases depth with
  | zero =>
    rw [if_neg (Nat.not_succ_le_zero _)]
    rfl
  | succ depth =>
    rw [ofNode?, node_eq, fields?_record (Nat.succ_pos depth) false j.keys_members (by decide), pure_bind]
    show (do
      let kind ← liftM (JoinKind.ofName? j.kind.name)
      let table ← TableRef.ofNode? depth j.table.node
      let condition ← Condition.ofNode? depth j.condition.node
      return ⟨kind, table, condition⟩ : Reading Join) = _
    rw [hkind, pure_bind, j.table.ofNode?_node, j.condition.ofNode?_node hnan]
    by_cases h : j.condition.node.depth ≤ depth
    · have htable : j.table.node.depth ≤ depth := by
        rw [Condition.depth_node] at h
        rw [TableRef.depth_node]
        omega
      rw [if_pos htable, pure_bind, if_pos h, pure_bind, if_pos (Nat.succ_le_succ h)]
    · rw [if_neg h, if_neg fun hle => h (Nat.le_of_succ_le_succ hle)]
      split <;> rfl

end Join

/-! ## Configurations -/

namespace Config

/-- Members of the node of a configuration. -/
def members (c : Config) : List (String × Node) :=
  [("version", Node.word "1"), ("table", Node.ofText c.table.name)] ++ Node.optionalText "alias" c.table.aliasName ++
    [("fields", c.fields.node)] ++ (c.identifier.map fun f => ("identifier", f.node)).toList ++
    [("placeholders", Node.word c.placeholders.name), ("insert_mode", Node.word c.insertMode.name),
      ("update_mode", Node.word c.updateMode.name), ("delete_mode", Node.word c.deleteMode.name)] ++
    listMember "tables" TableRef.node c.tables ++ listMember "joins" Join.node c.joins

theorem node_eq (c : Config) : c.node = Node.record c.members := rfl

theorem keys_listMember {α : Type} (name : String) (node : α → Node) (items : List α) :
    ((listMember name node items).map Prod.fst).Sublist [name] := by
  cases items
  · exact List.nil_sublist _
  · exact List.Sublist.refl _

/-- Settings stand in their order. -/
theorem keys_members (c : Config) : (c.members.map Prod.fst).Sublist settings := by
  have hidentifier : ((c.identifier.map fun f => ("identifier", f.node)).toList.map Prod.fst).Sublist
      ["identifier"] := by
    cases c.identifier
    · exact List.nil_sublist _
    · exact List.Sublist.refl _
  simp only [members, List.map_append]
  exact ((((((List.Sublist.refl ["version", "table"]).append (keys_optionalText "alias" c.table.aliasName)).append
    (List.Sublist.refl ["fields"])).append hidentifier).append
      (List.Sublist.refl ["placeholders", "insert_mode", "update_mode", "delete_mode"])).append
        (keys_listMember "tables" TableRef.node c.tables)).append (keys_listMember "joins" Join.node c.joins)

theorem isWritten_of_mem_listMember {α : Type} {name : String} {node : α → Node} {items : List α} {m : String × Node}
    (hitems : ∀ a ∈ items, (node a).IsWritten) (h : m ∈ listMember name node items) : m.2.IsWritten := by
  rw [listMember] at h
  split at h
  · cases h
  · rw [List.mem_singleton.1 h]
    exact isWritten_sequence fun n hn => by
      obtain ⟨a, ha, rfl⟩ := List.mem_map.1 hn
      exact hitems a ha

theorem depth_listMember {α : Type} {name : String} {node : α → Node} {items : List α} {m : String × Node} {bound : Nat}
    (hitems : ∀ a ∈ items, (node a).depth ≤ bound) (h : m ∈ listMember name node items) : m.2.depth ≤ bound + 1 := by
  rw [listMember] at h
  split at h
  · cases h
  · rw [List.mem_singleton.1 h]
    exact Nat.succ_le_succ (itemsDepth_le.2 (List.forall_mem_map.2 hitems))

theorem isWritten_of_mem_members {c : Config} {m : String × Node} (h : m ∈ c.members) : m.2.IsWritten := by
  simp only [members, List.mem_append] at h
  obtain (((((h | h) | h) | h) | h) | h) | h := h
  · simp only [List.mem_cons, List.not_mem_nil, or_false] at h
    obtain rfl | rfl := h
    · exact isWritten_word (by decide)
    · exact isWritten_ofText c.table.name
  · obtain ⟨text, h⟩ := exists_of_mem_optionalText h
    exact h ▸ isWritten_ofText text
  · rw [List.mem_singleton.1 h]
    exact c.fields.isWritten_node
  · obtain ⟨f, -, rfl⟩ := Option.map_eq_some_iff.1 (Option.mem_toList.1 h)
    exact f.isWritten_node
  · simp only [List.mem_cons, List.not_mem_nil, or_false] at h
    obtain rfl | rfl | rfl | rfl := h
    · exact isWritten_word (by cases c.placeholders <;> decide)
    · exact isWritten_word (by cases c.insertMode <;> decide)
    · exact isWritten_word (by cases c.updateMode <;> decide)
    · exact isWritten_word (by cases c.deleteMode <;> decide)
  · exact isWritten_of_mem_listMember (fun t _ => t.isWritten_node) h
  · exact isWritten_of_mem_listMember (fun j _ => j.isWritten_node) h

/-- Only conditions make a configuration deep. -/
theorem depth_node_le {c : Config} {bound : Nat} :
    c.node.depth ≤ bound + 3 ↔ itemsDepth (c.joins.map Join.node) ≤ bound + 1 := by
  rw [node_eq, depth_record_le]
  constructor
  · intro h
    by_cases hnil : c.joins.isEmpty
    · rw [List.isEmpty_iff.1 hnil]
      exact Nat.zero_le _
    · have hmember : listMember "joins" Join.node c.joins = [("joins", .sequence none (c.joins.map Join.node))] :=
      if_neg hnil
      have hmem : ("joins", Node.sequence none (c.joins.map Join.node)) ∈ c.members := by
        rw [members, hmember]
        exact List.mem_append_right _ List.mem_cons_self
      exact Nat.le_of_succ_le_succ (h _ hmem)
  · intro h m hm
    simp only [members, List.mem_append] at hm
    obtain (((((hm | hm) | hm) | hm) | hm) | hm) | hm := hm
    · simp only [List.mem_cons, List.not_mem_nil, or_false] at hm
      obtain rfl | rfl := hm <;> exact Nat.zero_le _
    · obtain ⟨text, hm⟩ := exists_of_mem_optionalText hm
      rw [hm]
      exact Nat.zero_le _
    · rw [List.mem_singleton.1 hm]
      exact c.fields.depth_node.trans (Nat.succ_pos _)
    · obtain ⟨f, -, rfl⟩ := Option.map_eq_some_iff.1 (Option.mem_toList.1 hm)
      exact f.depth_node.trans_le (Nat.succ_pos _)
    · simp only [List.mem_cons, List.not_mem_nil, or_false] at hm
      obtain rfl | rfl | rfl | rfl := hm <;> exact Nat.zero_le _
    · refine depth_listMember (fun t _ => ?_) hm
      exact t.depth_node.trans_le (Nat.succ_pos _)
    · exact depth_listMember (fun j hj => itemsDepth_le.1 h _ (List.mem_map_of_mem hj)) hm

/-- **The text of a configuration is read as its node.** -/
theorem ofText?_render (c : Config) : Document.ofText? c.render = some ⟨c.node, []⟩ :=
  Yaml.Node.ofText?_render (membersWritten_record c.keys_members (by decide) fun _ hm => isWritten_of_mem_members hm)
    (List.cons_ne_nil _ _)

/-! ## Settings -/

/-- Settings that are always written. -/
theorem lookup_required (c : Config) : c.members.lookup "version" = some (Node.word "1") ∧
    c.members.lookup "table" = some (Node.ofText c.table.name) ∧ c.members.lookup "fields" = some c.fields.node ∧
    c.members.lookup "placeholders" = some (Node.word c.placeholders.name) ∧
    c.members.lookup "insert_mode" = some (Node.word c.insertMode.name) ∧
    c.members.lookup "update_mode" = some (Node.word c.updateMode.name) ∧
    c.members.lookup "delete_mode" = some (Node.word c.deleteMode.name) := by
  obtain ⟨⟨name, aliasName⟩, fields, identifier, placeholders, insertMode, updateMode, deleteMode, tables, joins⟩ := c
  cases aliasName <;> cases identifier <;> exact ⟨rfl, rfl, rfl, rfl, rfl, rfl, rfl⟩

/-- Node of a list, if there is anything in it. -/
def listNode? {α : Type} (node : α → Node) (items : List α) : Option Node :=
  if items.isEmpty then none else some (.sequence none (items.map node))

/-- Settings that may be left out. -/
theorem lookup_optional (c : Config) : c.members.lookup "alias" = c.table.aliasName.map Node.ofText ∧
    c.members.lookup "identifier" = c.identifier.map FieldRef.node ∧
    c.members.lookup "tables" = listNode? TableRef.node c.tables ∧
    c.members.lookup "joins" = listNode? Join.node c.joins := by
  obtain ⟨⟨name, aliasName⟩, fields, identifier, placeholders, insertMode, updateMode, deleteMode, tables, joins⟩ := c
  cases aliasName <;> cases identifier <;> cases tables <;> cases joins <;> exact ⟨rfl, rfl, rfl, rfl⟩

theorem choice?_word {α : Type} {ofName? : String → Option α} {name : String} {a : α} (h : ofName? name = some a)
    (default : α) : choice? ofName? default (some (Node.word name)) = pure a := by
  show (liftM (ofName? name) : Reading α) = _
  rw [h]
  rfl

theorem list?_listNode? {α : Type} {read : Nat → Node → Reading α} {node : α → Node} {items : List α} {depth : Nat}
    (hread : ∀ a ∈ items, read depth (node a) = if (node a).depth ≤ depth then pure a else failure) :
    list? (depth + 1) read (listNode? node items) =
      if itemsDepth (items.map node) ≤ depth then pure items else failure := by
  rw [listNode?]
  split
  next hnil =>
    rw [List.isEmpty_iff.1 hnil]
    rfl
  next =>
    rw [list?, items?_sequence _ _ (Nat.succ_pos depth), pure_bind]
    exact mapM_itemsDepth hread

theorem maybe?_identifier (identifier : Option FieldRef) {depth : Nat} (hdepth : 0 < depth) :
    maybe? (FieldRef.ofNode? depth) (identifier.map FieldRef.node) = pure identifier := by
  cases identifier with
  | none => rfl
  | some f =>
    have hread : FieldRef.ofNode? depth f.node = pure f :=
      (f.ofNode?_node depth).trans (if_pos (f.depth_node.trans_le hdepth))
    refine (maybe?_mapping _ _ _).trans ?_
    exact (congrArg (some <$> ·) hread).trans (map_pure _ _)

theorem maybe?_version : maybe? version? (some (Node.word "1")) = pure (some 1) := by
  have hnatural : (liftM (Yaml.Word.natural? "1") : Reading Nat) = pure 1 := by
    rw [show Yaml.Word.natural? "1" = some 1 by decide +kernel]
    rfl
  have hversion : version? (Node.word "1") = pure 1 := by
    show (liftM (Yaml.Word.natural? "1") : Reading Nat) >>= _ = _
    rw [hnatural, pure_bind]
    rfl
  show some <$> version? (Node.word "1") = _
  rw [hversion, map_pure]

/-- **A configuration without a missing number is read back from its node** if it may be as deep as it is. -/
theorem ofNode?_node (c : Config) (hnan : ∀ j ∈ c.joins, ∀ x ∈ j.condition.floats, x ≠ .nan) :
    ofNode? c.node = if c.node.depth ≤ Node.depthLimit then pure (some 1, c) else failure := by
  obtain ⟨hversion, htable, hfields, hplaceholders, hinsert, hupdate, hdelete⟩ := c.lookup_required
  obtain ⟨halias, hidentifier, htables, hjoins⟩ := c.lookup_optional
  have htables' : list? (Node.depthLimit - 1) TableRef.ofNode? (listNode? TableRef.node c.tables) = pure c.tables := by
    refine (list?_listNode? fun t _ => t.ofNode?_node _).trans (if_pos (itemsDepth_le.2 (List.forall_mem_map.2 ?_)))
    intro t _
    rw [t.depth_node]
    decide
  have hjoins' : list? (Node.depthLimit - 1) Join.ofNode? (listNode? Join.node c.joins) =
      if c.node.depth ≤ Node.depthLimit then pure c.joins else failure := by
    refine (list?_listNode? fun j hj => j.ofNode?_node (hnan j hj) _).trans ?_
    exact if_congr depth_node_le.symm rfl rfl
  rw [ofNode?, node_eq, fields?_record (by decide) true c.keys_members (by decide), pure_bind]
  dsimp only
  rw [hversion, htable, hfields, hplaceholders, hinsert, hupdate, hdelete, halias, hidentifier, htables, hjoins]
  show (do
    let version ← maybe? version? (some (Node.word "1"))
    let aliasName ← maybe? text? (c.table.aliasName.map Node.ofText)
    let fieldMap ← FieldMap.ofNode? (Node.depthLimit - 1) c.fields.node
    let identifier ← maybe? (FieldRef.ofNode? (Node.depthLimit - 1)) (c.identifier.map FieldRef.node)
    let placeholders ← choice? Placeholder.Style.ofName? .numbered (some (Node.word c.placeholders.name))
    let insertMode ← choice? InsertMode.ofName? .batched (some (Node.word c.insertMode.name))
    let updateMode ← choice? TargetMode.ofName? .direct (some (Node.word c.updateMode.name))
    let deleteMode ← choice? TargetMode.ofName? .direct (some (Node.word c.deleteMode.name))
    let tables ← list? (Node.depthLimit - 1) TableRef.ofNode? (listNode? TableRef.node c.tables)
    let joins ← list? (Node.depthLimit - 1) Join.ofNode? (listNode? Join.node c.joins)
    return (version, ⟨⟨c.table.name, aliasName⟩, fieldMap, identifier, placeholders, insertMode, updateMode, deleteMode,
      tables, joins⟩) : Reading (Option Nat × Config)) = _
  have hstyle : Placeholder.Style.ofName? c.placeholders.name = some c.placeholders := by
    cases c.placeholders <;> decide
  have hmode : InsertMode.ofName? c.insertMode.name = some c.insertMode := by
    cases c.insertMode <;> decide
  have htarget (mode : TargetMode) : TargetMode.ofName? mode.name = some mode := by
    cases mode <;> decide
  simp only [maybe?_version, maybe?_ofText, c.fields.ofNode?_node (show 0 < Node.depthLimit - 1 by decide),
    maybe?_identifier _ (show 0 < Node.depthLimit - 1 by decide), choice?_word hstyle, choice?_word hmode,
    choice?_word (htarget _), htables', hjoins', pure_bind]
  rw [← node_eq]
  split <;> rfl

/-- **A configuration that passes its checks is read back from its text**, if its conditions are no deeper than the
reader goes and no missing number is in them. -/
theorem read_render (c : Config) (hcheck : c.check = .ok ()) (hdepth : c.node.depth ≤ Node.depthLimit)
    (hnan : ∀ j ∈ c.joins, ∀ x ∈ j.condition.floats, x ≠ .nan) : read c.render = .ok c := by
  have hcontents : Document.contents? ofNode? ⟨c.node, []⟩ = some (some 1, c) := by
    rw [Document.contents?, ofNode?_node c hnan, if_pos hdepth]
    rfl
  rw [read, ofText?_render, Option.bind_some, hcontents]
  show (if supportedVersions.contains 1 then c.check.map fun _ => c else _) = _
  rw [if_pos (by decide), hcheck]
  rfl

/-- Texts that would be read as something else if they stood plainly, a key that is too long to be a simple one, and a
condition with a list in it under another condition. -/
def oddlyWritten : Config where
  table := ⟨"null", some "# no: comment"⟩
  fields := Dict.ofList [("1.0", "true"), ("two\nlines\n", " - item"),
    (String.ofList (List.replicate 130 'k'), "a\t\x27\x22\x00")]
  identifier := some ⟨some "~", "1.0"⟩
  placeholders := .numbered
  insertMode := .perRecord
  updateMode := .byIdentifier
  deleteMode := .direct
  tables := [⟨"!tag", none⟩, ⟨"&anchor", some "0x1F"⟩]
  joins :=
    let values := [.null, .text "null", .int 1, .text "1", .float (Binary64.ofInt 1),
      .float (Binary64.ofRatio true 0 1),
      .float (.infinity true), .list [], .list [.bool false, .text ""]]
    [⟨.left, ⟨"---", some "..."⟩, ⟨.or, [.condition ⟨.in, [.field ⟨none, "[a]"⟩, .literal (.list values)], true⟩,
      .literal (.text "  indented\n\n  block")], false⟩⟩]

theorem read_render_oddlyWritten : oddlyWritten.check = .ok () ∧ oddlyWritten.node.depth ≤ Node.depthLimit ∧
    (∀ j ∈ oddlyWritten.joins, ∀ x ∈ j.condition.floats, x ≠ .nan) ∧ read oddlyWritten.render = .ok oddlyWritten := by
  have hcheck : oddlyWritten.check = .ok () := by decide +kernel
  have hdepth : oddlyWritten.node.depth ≤ Node.depthLimit := by decide +kernel
  have hnan : ∀ j ∈ oddlyWritten.joins, ∀ x ∈ j.condition.floats, x ≠ .nan := by decide +kernel
  exact ⟨hcheck, hdepth, hnan, read_render oddlyWritten hcheck hdepth hnan⟩

/-- A configuration that is deeper than the reader goes is written all the same, but not read. -/
theorem read_render_of_depth (c : Config) (hdepth : Node.depthLimit < c.node.depth)
    (hnan : ∀ j ∈ c.joins, ∀ x ∈ j.condition.floats, x ≠ .nan) : read c.render = .error .unreadable := by
  have hcontents : Document.contents? ofNode? ⟨c.node, []⟩ = none := by
    rw [Document.contents?, ofNode?_node c hnan, if_neg (Nat.not_le.2 hdepth)]
    rfl
  rw [read, ofText?_render, Option.bind_some, hcontents]

end Config

end BoundSql
