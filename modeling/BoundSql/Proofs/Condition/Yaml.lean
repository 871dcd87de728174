import BoundSql.Condition.Yaml
import BoundSql.Proofs.Condition.Json
import BoundSql.Proofs.Yaml.Content

/-!
# Conditions are read back from YAML

A value is read back from its node unless a missing number is in it (`Value.ofNode?_node`), and a condition is read back
from its node (`Condition.ofNode?_node`), if as many collections may be open as the node has.
-/

namespace BoundSql

open Yaml (Node Reading Tag Word)
open Yaml.Node

/-! ## Values -/

namespace Value

mutual

theorem isWritten_node (v : Value) : v.node.IsWritten := by
  cases v with
  | null => exact isWritten_word (by decide)
  | bool b => exact isWritten_ofBool b
  | int n => exact isWritten_word (Yaml.Style.mayBePlain_toString n.toInt)
  | float x => exact isWritten_word (Yaml.Style.mayBePlain_text x)
  | text s => exact isWritten_ofText s
  | list items => exact isWritten_sequence (isWritten_nodes items)

theorem isWritten_nodes (vs : List Value) : ∀ n ∈ nodes vs, n.IsWritten := by
  cases vs with
  | nil => exact fun _ h => nomatch h
  | cons v vs => exact List.forall_mem_cons.2 ⟨isWritten_node v, isWritten_nodes vs⟩

end

theorem ofNode?_word (depth : Nat) (tagRead : Bool) {s : String} {v : Value} (h : ofWord? s = some v) :
    ofNode? depth tagRead (Node.word s) = pure v := by
  have hread : ofNode? depth tagRead (Node.word s) = liftM (ofWord? s) := by
    cases depth <;> rfl
  rw [hread, h]
  rfl

/-- The tag of a value that was read already says nothing more. -/
theorem ofNode?_tagged (depth : Nat) (n : Node) (tag : Tag) :
    ofNode? depth true (n.tagged tag) = ofNode? depth true n := by
  cases n with
  | scalar own => cases own <;> cases depth <;> rfl
  | sequence => cases depth <;> rfl
  | mapping => cases depth <;> rfl
  | reference => rfl

theorem ofNode?_ofText (depth : Nat) (tagRead : Bool) (s : String) :
    ofNode? depth tagRead (Node.ofText s) = pure (.text s) := by
  by_cases hplain : Yaml.Style.ofText s = .plain
  · have hword : ofWord? s = some (.text s) := by
      rw [ofWord?, Word.ofText_of_not_ambiguous (Yaml.Style.ofText_eq_plain hplain)]
    rw [Node.ofText, hplain]
    exact ofNode?_word depth tagRead hword
  · have hread : ofNode? depth tagRead (Node.ofText s) =
        if Yaml.Style.ofText s = .plain then liftM (ofWord? s) else pure (.text s) := by
      cases depth <;> rfl
    rw [hread, if_neg hplain]

theorem nodes_eq_map (vs : List Value) : nodes vs = vs.map node := by
  induction vs with
  | nil => rfl
  | cons v vs ih => rw [nodes, ih, List.map_cons]

theorem floats_of_mem {v : Value} {vs : List Value} (h : v ∈ vs) {x : Binary64} (hx : x ∈ v.floats) :
    x ∈ floatsAll vs := by
  induction vs with
  | nil => cases h
  | cons w vs ih =>
    rw [floatsAll]
    obtain rfl | h := List.mem_cons.1 h
    · exact List.mem_append_left _ hx
    · exact List.mem_append_right _ (ih h)

/-- **A value without a missing number is read back** if it may be as deep as it is. -/
theorem ofNode?_node (v : Value) (hnan : ∀ x ∈ v.floats, x ≠ .nan) (depth : Nat) (tagRead : Bool) :
    ofNode? depth tagRead v.node = if v.node.depth ≤ depth then pure v else failure := by
  have hscalar {s : String} {w : Value} (h : ofWord? s = some w) :
      ofNode? depth tagRead (Node.word s) = if (Node.word s).depth ≤ depth then pure w else failure :=
    (ofNode?_word depth tagRead h).trans (if_pos (Nat.zero_le depth)).symm
  match v with
  | .null => exact hscalar rfl
  | .bool b => cases b <;> exact hscalar rfl
  | .int n =>
    have hfits : inInt64 n.toInt := by
      simp only [inInt64, Bool.and_eq_true, decide_eq_true_eq]
      exact ⟨n.minValue_le_toInt, n.toInt_le⟩
    refine hscalar ?_
    rw [ofWord?, Word.ofText_toString hfits]
    show ofInteger? n.toInt = _
    rw [ofInteger?, if_pos hfits, Int64.ofInt_toInt]
  | .float x =>
    refine hscalar ?_
    rw [ofWord?, Word.ofText_text (hnan x List.mem_cons_self)]
  | .text s => exact (ofNode?_ofText depth tagRead s).trans (if_pos (Nat.zero_le depth)).symm
  | .list items =>
    have hdepth : (node (.list items)).depth = itemsDepth (items.map node) + 1 := by
      rw [node, nodes_eq_map, Node.depth]
    cases depth with
    | zero =>
      rw [hdepth, if_neg (Nat.not_succ_le_zero _)]
      cases tagRead <;> rfl
    | succ depth =>
      have hitems := mapM_itemsDepth (l := items) fun v hv =>
        ofNode?_node v (fun x hx => hnan x (floats_of_mem hv hx)) depth false
      have hread : ofNode? (depth + 1) tagRead (node (.list items)) =
          list <$> (nodes items).mapM (ofNode? depth false) := by
        cases tagRead <;> rfl
      rw [hread, nodes_eq_map, hitems, hdepth]
      by_cases h : itemsDepth (items.map node) ≤ depth
      · rw [if_pos h, if_pos (Nat.succ_le_succ h), map_pure]
      · rw [if_neg h, if_neg fun hle => h (Nat.le_of_succ_le_succ hle)]
        rfl

end Value

/-! ## Fields -/

namespace FieldRef

/-- Members of the node of a reference. -/
def members (f : FieldRef) : List (String × Node) :=
  Node.optionalText "entity" f.entity ++ [("field", Node.ofText f.field)]

theorem node_eq (f : FieldRef) : f.node = Node.record f.members := rfl

theorem keys_members (f : FieldRef) : (f.members.map Prod.fst).Sublist ["entity", "field"] := by
  rw [members, List.map_append]
  exact (keys_optionalText "entity" f.entity).append (List.Sublist.refl ["field"])

theorem exists_of_mem_members {f : FieldRef} {m : String × Node} (h : m ∈ f.members) :
    ∃ text, m.2 = Node.ofText text := by
  obtain h | h := List.mem_append.1 h
  · exact exists_of_mem_optionalText h
  · exact ⟨f.field, congrArg Prod.snd (List.mem_singleton.1 h)⟩

theorem isWritten_node (f : FieldRef) : f.node.IsWritten :=
  isWritten_record f.keys_members (by decide) fun m hm => by
    obtain ⟨text, hm⟩ := exists_of_mem_members hm
    exact hm ▸ isWritten_ofText text

theorem depth_node (f : FieldRef) : f.node.depth = 1 := by
  obtain ⟨entity, field⟩ := f
  cases entity <;> rfl

/-- **A reference is read back** if a collection may be open. -/
theorem ofNode?_node (f : FieldRef) (depth : Nat) :
    ofNode? depth f.node = if f.node.depth ≤ depth then pure f else failure := by
  have hentity : f.members.lookup "entity" = f.entity.map Node.ofText := by
    obtain ⟨entity, field⟩ := f
    cases entity <;> rfl
  have hfield : f.members.lookup "field" = some (Node.ofText f.field) := by
    obtain ⟨entity, field⟩ := f
    cases entity <;> rfl
  rw [depth_node]
  cases depth with
  | zero => rfl
  | succ depth =>
    rw [if_pos (show 1 ≤ depth + 1 from Nat.succ_pos depth), ofNode?, node_eq,
      fields?_record (Nat.succ_pos depth) false f.keys_members (by decide), pure_bind]
    dsimp only
    rw [hentity, hfield, maybe?_ofText, pure_bind]
    rfl

end FieldRef

/-! ## Terms and conditions -/

theorem Term.isPlain_literal : (Tag.ofText "!literal").IsPlain :=
  ⟨"literal", by decide +kernel, by decide, by decide, by decide +kernel⟩

theorem Term.isPlain_field : (Tag.ofText "!field").IsPlain :=
  ⟨"field", by decide +kernel, by decide, by decide, by decide +kernel⟩

theorem Term.isPlain_expression : (Tag.ofText "!expression").IsPlain :=
  ⟨"expression", by decide +kernel, by decide, by decide, by decide +kernel⟩

namespace Condition

/-- Members of the node of a condition. -/
def members (c : Condition) : List (String × Node) :=
  [("kind", Node.word c.operator.name), ("terms", .sequence none (Term.nodes c.terms)),
    ("negated", Node.ofBool c.negated)]

theorem node_eq (c : Condition) : c.node = Node.record c.members := by
  cases c
  rfl

theorem keys_members (c : Condition) :
    (c.members.map Prod.fst).Sublist ["kind", "terms", "negated"] := List.Sublist.refl _

theorem mayBePlain_name (o : Operator) : Yaml.Style.mayBePlain o.name.toList := by
  cases o <;> decide

end Condition

mutual

theorem Term.isWritten_node (t : Term) : t.node.IsWritten := by
  cases t with
  | literal v => exact isWritten_tagged Term.isPlain_literal v.isWritten_node
  | field f => exact isWritten_tagged Term.isPlain_field f.isWritten_node
  | condition c => exact isWritten_tagged Term.isPlain_expression (Condition.isWritten_node c)

theorem Condition.isWritten_node (c : Condition) : c.node.IsWritten := by
  obtain ⟨operator, terms, negated⟩ := c
  have hterms := isWritten_sequence (Term.isWritten_nodes terms)
  refine isWritten_record (Condition.keys_members ⟨operator, terms, negated⟩) (by decide) fun m hm => ?_
  simp only [List.mem_cons, List.not_mem_nil, or_false] at hm
  obtain rfl | rfl | rfl := hm
  · exact isWritten_word (Condition.mayBePlain_name operator)
  · exact hterms
  · exact isWritten_ofBool negated

theorem Term.isWritten_nodes (ts : List Term) : ∀ n ∈ Term.nodes ts, n.IsWritten := by
  cases ts with
  | nil => exact fun _ h => nomatch h
  | cons t ts => exact List.forall_mem_cons.2 ⟨Term.isWritten_node t, Term.isWritten_nodes ts⟩

end

theorem Condition.depth_node (c : Condition) : c.node.depth = itemsDepth (Term.nodes c.terms) + 2 := by
  obtain ⟨operator, terms, negated⟩ := c
  cases negated <;> simp [Condition.node, Node.record, Node.depth, membersDepth, memberDepth, Node.word, Node.ofBool]

theorem Term.ofNode?_tagged (read : Node → Reading Condition) (depth : Nat) {n : Node} (h : n.IsWritten) (tag : Tag) :
    Term.ofNode? read depth (n.tagged tag) =
      match tag.name? with
      | some "literal" => .literal <$> Value.ofNode? depth true (n.tagged tag)
      | some "field" => .field <$> FieldRef.ofNode? depth (n.tagged tag)
      | some "expression" => .condition <$> read (n.tagged tag)
      | _ => failure := by
  cases n with
  | scalar | sequence | mapping => rfl
  | reference => exact h.elim

theorem Condition.ofNode?_tagged (depth : Nat) (c : Condition) (tag : Tag) :
    Condition.ofNode? depth (c.node.tagged tag) = Condition.ofNode? depth c.node := by
  rw [Condition.node_eq]
  rcases depth with _ | _ | depth <;> rfl

theorem Term.nodes_eq_map (ts : List Term) : Term.nodes ts = ts.map Term.node := by
  induction ts with
  | nil => rfl
  | cons t ts ih => rw [Term.nodes, ih, List.map_cons]

theorem Term.floats_of_mem {t : Term} {ts : List Term} (h : t ∈ ts) {x : Binary64} (hx : x ∈ t.floats) :
    x ∈ Term.floatsAll ts := by
  induction ts with
  | nil => cases h
  | cons u ts ih =>
    rw [Term.floatsAll]
    obtain rfl | h := List.mem_cons.1 h
    · exact List.mem_append_left _ hx
    · exact List.mem_append_right _ (ih h)

mutual

/-- A term without a missing number is read back if it may be as deep as it is. -/
theorem Term.ofNode?_node (t : Term) (hnan : ∀ x ∈ t.floats, x ≠ .nan) (depth : Nat) :
    Term.ofNode? (Condition.ofNode? depth) depth t.node = if t.node.depth ≤ depth then pure t else failure := by
  match t with
  | .literal v =>
    have hname : (Tag.ofText "!literal").name? = some "literal" := by decide +kernel
    rw [Term.node, depth_tagged, Term.ofNode?_tagged _ _ v.isWritten_node, hname]
    show Term.literal <$> _ = _
    rw [Value.ofNode?_tagged, v.ofNode?_node hnan]
    split <;> rfl
  | .field f =>
    have hname : (Tag.ofText "!field").name? = some "field" := by decide +kernel
    have hread : FieldRef.ofNode? depth (f.node.tagged (Tag.ofText "!field")) = FieldRef.ofNode? depth f.node := rfl
    rw [Term.node, depth_tagged, Term.ofNode?_tagged _ _ f.isWritten_node, hname]
    show Term.field <$> _ = _
    rw [hread, f.ofNode?_node]
    split <;> rfl
  | .condition c =>
    have hname : (Tag.ofText "!expression").name? = some "expression" := by decide +kernel
    rw [Term.node, depth_tagged, Term.ofNode?_tagged _ _ c.isWritten_node, hname]
    show Term.condition <$> _ = _
    rw [Condition.ofNode?_tagged, Condition.ofNode?_node c hnan]
    split <;> rfl

/-- **A condition without a missing number is read back** if it may be as deep as it is. -/
theorem Condition.ofNode?_node (c : Condition) (hnan : ∀ x ∈ c.floats, x ≠ .nan) (depth : Nat) :
    Condition.ofNode? depth c.node = if c.node.depth ≤ depth then pure c else failure := by
  match c with
  | ⟨operator, terms, negated⟩ =>
    have hoperator : (liftM (Operator.ofName? operator.name) : Reading Operator) = pure operator := by
      rw [Operator.ofName?_name]
      rfl
    have hkeys := Condition.keys_members ⟨operator, terms, negated⟩
    have hread {depth : Nat} (hdepth : 0 < depth) (readTerm : Node → Reading Term) :
        Condition.ofContent? depth readTerm (Condition.node ⟨operator, terms, negated⟩) = (do
          let items ← items? (depth - 1) (.sequence none (Term.nodes terms))
          let terms ← items.mapM readTerm
          let negated ← bool? (Node.ofBool negated)
          return ⟨operator, terms, negated⟩) := by
      rw [Condition.node_eq, Condition.ofContent?, fields?_record hdepth false hkeys (by decide), pure_bind]
      show (do
        let operator ← liftM (Operator.ofName? operator.name)
        let items ← items? (depth - 1) (.sequence none (Term.nodes terms))
        let terms ← items.mapM readTerm
        let negated ← bool? (Node.ofBool negated)
        return ⟨operator, terms, negated⟩ : Reading Condition) = _
      rw [hoperator, pure_bind]
    rw [Condition.depth_node]
    match depth with
    | 0 =>
      rw [if_neg (Nat.not_succ_le_zero _)]
      rfl
    | 1 =>
      rw [if_neg fun h => Nat.not_succ_le_zero _ (Nat.le_of_succ_le_succ h)]
      exact hread Nat.one_pos _
    | depth + 2 =>
      have hterms := mapM_itemsDepth (l := terms) fun t ht =>
        Term.ofNode?_node t (fun x hx => hnan x (Term.floats_of_mem ht hx)) depth
      rw [Condition.ofNode?, hread (show 0 < depth + 2 from Nat.succ_pos _), Nat.succ_sub_one,
        items?_sequence _ _ (Nat.succ_pos depth), pure_bind]
      show _ = if itemsDepth (Term.nodes terms) + 2 ≤ depth + 2 then _ else _
      rw [Term.nodes_eq_map, hterms]
      by_cases h : itemsDepth (terms.map Term.node) ≤ depth
      · rw [if_pos h, if_pos (Nat.add_le_add_right h 2), pure_bind, bool?_ofBool, pure_bind]
      · rw [if_neg h, if_neg fun hle => h (Nat.le_of_add_le_add_right hle)]
        rfl

end

end BoundSql
