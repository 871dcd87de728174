import BoundSql.Proofs.Yaml.Tree
import BoundSql.Yaml.Content

/-!
# Contents are read back

What is read of the nodes of contents: a word gives its text, a text gives itself whatever its style, and a record gives
its members (`Node.fields?_record`). A record is written if its members are, and is one deeper than they are.
-/

namespace BoundSql.Yaml.Node

variable {α β γ : Type} {n : Node} {tag : Tag}

/-! ## Depth -/

mutual

/-- Most collections that are open at once in a node. -/
def depth : Node → Nat
  | .scalar _ _ _ | .reference _ => 0
  | .sequence _ items => itemsDepth items + 1
  | .mapping _ members => membersDepth members + 1

/-- Most collections that are open at once in several nodes. -/
def itemsDepth : List Node → Nat
  | [] => 0
  | item :: items => max item.depth (itemsDepth items)

/-- Most collections that are open at once in several members. -/
def membersDepth : List Member → Nat
  | [] => 0
  | member :: members => max (memberDepth member) (membersDepth members)

/-- Most collections that are open at once in a member. -/
def memberDepth : Member → Nat
  | ⟨key, value⟩ => max key.depth value.depth

end

theorem itemsDepth_le {items : List Node} {bound : Nat} : itemsDepth items ≤ bound ↔ ∀ n ∈ items, n.depth ≤ bound := by
  induction items with
  | nil => simp [itemsDepth]
  | cons item items ih => simp [itemsDepth, ih]

theorem membersDepth_le {members : List Member} {bound : Nat} :
    membersDepth members ≤ bound ↔ ∀ m ∈ members, m.key.depth ≤ bound ∧ m.value.depth ≤ bound := by
  induction members with
  | nil => simp [membersDepth]
  | cons member members ih =>
    obtain ⟨key, value⟩ := member
    simp [membersDepth, memberDepth, ih, and_assoc]

@[simp] theorem depth_word (text : String) : (word text).depth = 0 := rfl

@[simp] theorem depth_tagged (n : Node) (tag : Tag) : (n.tagged tag).depth = n.depth := by
  cases n <;> rfl

theorem depth_record_le {members : List (String × Node)} {bound : Nat} :
    (record members).depth ≤ bound + 1 ↔ ∀ m ∈ members, m.2.depth ≤ bound := by
  rw [record, depth, Nat.succ_le_succ_iff, membersDepth_le, List.forall_mem_map]
  simp only [depth_word, Nat.zero_le, true_and]

/-! ## Nodes that are written -/

theorem areWritten_iff {items : List Node} : AreWritten items ↔ ∀ n ∈ items, n.IsWritten := by
  induction items with
  | nil => simp [AreWritten]
  | cons item items ih => simp [AreWritten, ih]

theorem membersWritten_iff {members : List Member} :
    MembersWritten members ↔ ∀ m ∈ members, m.key.IsKey ∧ m.value.IsWritten := by
  induction members with
  | nil => simp [MembersWritten]
  | cons member members ih =>
    obtain ⟨key, value⟩ := member
    simp [MembersWritten, MemberWritten, ih]

theorem isKey_ofText (s : String) : (ofText s).IsKey := ⟨Style.ofText s, s, rfl, Style.holds_ofText s⟩

theorem isWritten_ofText (s : String) : (ofText s).IsWritten := (isKey_ofText s).isWritten

theorem isKey_word {text : String} (h : Style.mayBePlain text.toList) : (word text).IsKey := ⟨.plain, text, rfl, h⟩

theorem isWritten_word {text : String} (h : Style.mayBePlain text.toList) : (word text).IsWritten :=
  (isKey_word h).isWritten

theorem isWritten_ofBool (b : Bool) : (ofBool b).IsWritten := by
  cases b <;> exact isWritten_word (by decide)

theorem isWritten_tagged (htag : tag.IsPlain) (h : n.IsWritten) : (n.tagged tag).IsWritten := by
  have htags : ∀ t ∈ some tag, t.IsPlain := fun t ht => Option.some.inj ht ▸ htag
  cases n with
  | scalar => exact ⟨htags, h.2⟩
  | sequence => exact ⟨htags, h.2⟩
  | mapping => exact ⟨htags, h.2⟩
  | reference => exact h.elim

theorem isWritten_sequence {items : List Node} (h : ∀ n ∈ items, n.IsWritten) : (sequence none items).IsWritten :=
  ⟨(fun _ h => nomatch h), areWritten_iff.2 h⟩

/-- A record of known names. -/
theorem membersWritten_record {members : List (String × Node)} {names : List String}
    (hnames : (members.map Prod.fst).Sublist names) (hplain : ∀ name ∈ names, Style.mayBePlain name.toList)
    (hvalues : ∀ m ∈ members, m.2.IsWritten) : MembersWritten (members.map fun m => ⟨word m.1, m.2⟩) := by
  rw [membersWritten_iff]
  intro m hm
  obtain ⟨entry, hentry, rfl⟩ := List.mem_map.1 hm
  exact ⟨isKey_word (hplain entry.1 (hnames.subset (List.mem_map_of_mem hentry))), hvalues entry hentry⟩

theorem isWritten_record {members : List (String × Node)} {names : List String}
    (hnames : (members.map Prod.fst).Sublist names) (hplain : ∀ name ∈ names, Style.mayBePlain name.toList)
    (hvalues : ∀ m ∈ members, m.2.IsWritten) : (record members).IsWritten :=
  ⟨(fun _ h => nomatch h), membersWritten_record hnames hplain hvalues⟩

/-! ## Members that may be left out -/

theorem keys_optionalText (name : String) (s : Option String) :
    ((optionalText name s).map Prod.fst).Sublist [name] := by
  cases s
  · exact List.nil_sublist _
  · exact List.Sublist.refl _

theorem exists_of_mem_optionalText {name : String} {s : Option String} {m : String × Node}
    (h : m ∈ optionalText name s) :
    ∃ text, m.2 = ofText text := by
  cases s with
  | none => cases h
  | some s => exact ⟨s, congrArg Prod.snd (List.mem_singleton.1 h)⟩

/-! ## Reading -/

theorem mapM_map {l : List α} {g : α → β} {f : β → Reading γ} {k : α → γ} (h : ∀ a ∈ l, f (g a) = pure (k a)) :
    (l.map g).mapM f = pure (l.map k) := by
  induction l with
  | nil => rfl
  | cons a l ih =>
    rw [List.map_cons, List.mapM_cons, h a List.mem_cons_self, pure_bind,
      ih fun b hb => h b (List.mem_cons_of_mem a hb),
      pure_bind, List.map_cons]

theorem failure_bind (f : α → Reading β) : (failure : Reading α) >>= f = failure := rfl

/-- Items are read if each of them may be as deep as it is. -/
theorem mapM_itemsDepth {l : List α} {node : α → Node} {f : Node → Reading α} {depth : Nat}
    (h : ∀ a ∈ l, f (node a) = if (node a).depth ≤ depth then pure a else failure) :
    (l.map node).mapM f = if itemsDepth (l.map node) ≤ depth then pure l else failure := by
  induction l with
  | nil => rfl
  | cons a l ih =>
    rw [List.map_cons, List.mapM_cons, h a List.mem_cons_self, ih fun b hb => h b (List.mem_cons_of_mem a hb),
      itemsDepth]
    by_cases ha : (node a).depth ≤ depth
    · by_cases hl : itemsDepth (l.map node) ≤ depth
      · rw [if_pos ha, if_pos hl, if_pos (Nat.max_le.2 ⟨ha, hl⟩), pure_bind, pure_bind]
      · rw [if_pos ha, if_neg hl, if_neg fun h => hl (Nat.max_le.1 h).2, pure_bind, failure_bind]
    · rw [if_neg ha, if_neg fun h => ha (Nat.max_le.1 h).1, failure_bind]

theorem bool?_ofBool (b : Bool) : bool? (ofBool b) = pure b := by
  cases b <;> rfl

theorem items?_sequence (tag : Option Tag) (items : List Node) {depth : Nat} (h : 0 < depth) :
    items? depth (.sequence tag items) = pure items := by
  show (if 0 < depth then pure items else failure : Reading (List Node)) = _
  rw [if_pos h]

/-- **A text is read where nothing might stand.** -/
theorem maybe?_ofText (s : Option String) : maybe? text? (s.map ofText) = pure s := by
  cases s with
  | none => rfl
  | some s =>
    have hread : optional? (ofText s) = pure (some (ofText s)) := by
      rw [ofText]
      cases hstyle : Style.ofText s with
      | plain =>
        have hnull : Word.isNull s = false := by
          rw [← Bool.not_eq_true]
          intro hnull
          have hword := Word.ofText_of_not_ambiguous (Style.ofText_eq_plain hstyle)
          rw [Word.ofText, if_pos hnull] at hword
          cases hword
        show (pure (if Word.isNull s then none else some (scalar none .plain s)) : Reading (Option Node)) = _
        rw [hnull]
        rfl
      | _ => rfl
    rw [Option.map_some, maybe?]
    refine (congrArg (· >>= _) hread).trans ?_
    rw [pure_bind]
    rfl

theorem maybe?_mapping (read : Node → Reading α) (tag : Option Tag) (members : List Member) :
    maybe? read (some (.mapping tag members)) = some <$> read (.mapping tag members) := rfl

/-- **The members of a record are read**, by their names. -/
theorem fields?_record {members : List (String × Node)} {names : List String} {depth : Nat} (hdepth : 0 < depth)
    (closed : Bool) (hnames : (members.map Prod.fst).Sublist names) (hdistinct : names.Nodup) :
    fields? depth closed names (record members) = pure fun name => members.lookup name := by
  have hentries : entries? depth (record members) = pure members := by
    show (if 0 < depth then _ else failure : Reading (List (String × Node))) = _
    rw [if_pos hdepth]
    refine (mapM_map (k := id) fun m _ => ?_).trans (by rw [List.map_id])
    rfl
  have htest : ((closed && !(members.map Prod.fst).all names.contains) ||
      names.any fun name => decide (1 < (members.map Prod.fst).count name)) = false := by
    have hall : (members.map Prod.fst).all names.contains :=
      List.all_eq_true.2 fun name hname => List.contains_iff_mem.2 (hnames.subset hname)
    have hcount : (names.any fun name => decide (1 < (members.map Prod.fst).count name)) = false :=
      List.any_eq_false.2 fun name _ => by
        have := List.nodup_iff_count_le_one.1 (hdistinct.sublist hnames) name
        simpa using this
    rw [hall, hcount, Bool.not_true, Bool.and_false]
    rfl
  rw [fields?, hentries, pure_bind]
  simp only [htest, Bool.false_eq_true, if_false]

end BoundSql.Yaml.Node
