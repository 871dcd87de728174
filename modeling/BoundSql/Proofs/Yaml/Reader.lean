import BoundSql.Proofs.Yaml.Tree
import BoundSql.Yaml.Document

/-!
# Nodes are read from their tokens

The tokens of a written node are read as the node, whatever tokens follow (`Node.next?_tokens`). Three calls for each
token are enough. So the text of a document is read as its node (`Document.ofText?_render`).
-/

namespace BoundSql.Yaml

open Scanner (tagTokens)

namespace Node

variable {fuel : Nat} {unindented : Bool} {tag : Option Tag} {numbers : Dict Nat} {anchored : List (Nat × Option Node)}
variable {tokens' rest : List Token} {t : Token} {ts : List Token}

/-! ## What a node begins with -/

/-- Whether the content of a node begins with a token. -/
def beginsContent : Token → Bool
  | .scalar _ _ | .flowSequence | .flowMapping | .blockSequence | .blockMapping | .entry => true
  | _ => false

theorem next?_tagTokens (htag : ∀ t ∈ tag, t.IsPlain) (ht : beginsContent t) (fuel : Nat) (unindented : Bool)
    (numbers : Dict Nat) (anchored : List (Nat × Option Node)) :
    next? WrittenTag.commonHandles (fuel + 1) true unindented ⟨tagTokens tag ++ t :: ts, numbers, anchored⟩ =
      content? WrittenTag.commonHandles fuel true unindented ⟨none, tag⟩ ⟨t :: ts, numbers, anchored⟩ := by
  have hproperties : Reader.properties? WrittenTag.commonHandles ⟨tagTokens tag ++ t :: ts, numbers, anchored⟩ =
      some (⟨none, tag⟩, ⟨t :: ts, numbers, anchored⟩) := by
    cases tag with
    | none => cases t <;> first | rfl | cases ht
    | some tag =>
      have hexpand := (htag tag rfl).expand?
      cases t
      all_goals first
        | (simp only [tagTokens, List.cons_append, List.nil_append, Reader.properties?, hexpand]
           rfl)
        | cases ht
  have hreference : ∀ name more, tagTokens tag ++ t :: ts ≠ .reference name :: more := by
    intro name more heq
    cases tag with
    | none =>
      obtain rfl := (List.cons.inj heq).1
      cases ht
    | some tag => cases (List.cons.inj heq).1
  rw [next?]
  split
  next name more heq => exact absurd heq (hreference name more)
  next =>
    rw [hproperties]
    simp only [Option.bind_eq_bind, Option.bind_some, Reader.begin, Reader.finish]
    cases content? WrittenTag.commonHandles fuel true unindented ⟨none, tag⟩ ⟨t :: ts, numbers, anchored⟩ <;> rfl

/-- The first token of a node. -/
theorem exists_tokens (n : Node) (h : n.IsWritten) (ofKey : Bool) : ∃ t ts, n.tokens ofKey = t :: ts ∧
    (beginsContent t ∨ ∃ written, t = .tag written) ∧ (ofKey = false → t ≠ .entry) := by
  have htagged (t : Token) (ts : List Token) (tag : Option Tag) (ht : beginsContent t)
      (hentry : ofKey = false → t ≠ .entry) :
      ∃ t' ts', tagTokens tag ++ t :: ts = t' :: ts' ∧ (beginsContent t' ∨ ∃ written, t' = .tag written) ∧
        (ofKey = false → t' ≠ .entry) := by
    cases tag with
    | none => exact ⟨t, ts, rfl, .inl ht, hentry⟩
    | some tag => exact ⟨_, _, rfl, .inr ⟨_, rfl⟩, fun _ h => by cases h⟩
  cases n with
  | scalar tag style text => exact htagged _ _ tag rfl fun _ h => by cases h
  | sequence tag items =>
    cases items with
    | nil => exact htagged _ _ tag rfl fun _ h => by cases h
    | cons item items =>
      rw [tokens]
      cases ofKey with
      | true => exact htagged _ _ tag rfl fun h => by cases h
      | false => exact htagged _ _ tag rfl fun _ h => by cases h
  | mapping tag members =>
    cases members with
    | nil => exact htagged _ _ tag rfl fun _ h => by cases h
    | cons member members => exact htagged _ _ tag rfl fun _ h => by cases h
  | reference number => exact h.elim

theorem orEmpty_tokens {n : Node} (h : n.IsWritten) {ofKey : Bool} {stops : List Token}
    (hstops : stops = [.entry, .blockEnd] ∧ ofKey = false ∨ stops = [.entry, .key, .value, .blockEnd] ∧ ofKey = false ∨
      stops = [.key, .value, .blockEnd]) (read : Reader → Option (Node × Reader)) (rest : List Token)
    (numbers : Dict Nat) (anchored : List (Nat × Option Node)) :
    Reader.orEmpty stops read ⟨n.tokens ofKey ++ rest, numbers, anchored⟩ =
      read ⟨n.tokens ofKey ++ rest, numbers, anchored⟩ := by
  obtain ⟨t, ts, htokens, ht, hentry⟩ := n.exists_tokens h ofKey
  have hstop : t ∉ stops := by
    intro hmem
    have hne : t ≠ .key ∧ t ≠ .value ∧ t ≠ .blockEnd := by
      obtain ht | ⟨written, rfl⟩ := ht
      · refine ⟨?_, ?_, ?_⟩ <;> rintro rfl <;> cases ht
      · exact ⟨(fun h => nomatch h), (fun h => nomatch h), fun h => nomatch h⟩
    obtain ⟨rfl, hofKey⟩ | ⟨rfl, hofKey⟩ | rfl := hstops
    · simp [hentry hofKey, hne] at hmem
    · simp [hentry hofKey, hne] at hmem
    · simp [hne] at hmem
  rw [Reader.orEmpty, htokens, List.cons_append]
  simp [Reader.atAny, hstop]

/-! ## Reading -/

theorem length_tokens_pos (n : Node) (h : n.IsWritten) (ofKey : Bool) : 0 < (n.tokens ofKey).length := by
  obtain ⟨t, ts, htokens, -⟩ := n.exists_tokens h ofKey
  rw [htokens]
  exact Nat.succ_pos _

theorem memberTokens_eq (member : Member) : memberTokens member =
    .key :: (member.key.tokens false ++ .value :: member.value.tokens (simpleKey? member.key).isSome) := by
  cases member
  rfl

mutual

/-- **The tokens of a written node are read as the node**, and what follows is left. -/
theorem next?_tokens (n : Node) (h : n.IsWritten) {ofKey : Bool} {fuel : Nat} {unindented : Bool} {rest : List Token}
    {numbers : Dict Nat} {anchored : List (Nat × Option Node)} (hfuel : 3 * (n.tokens ofKey).length ≤ fuel)
    (hofKey : ofKey → unindented ∧ rest.head? ≠ some .entry) :
    next? WrittenTag.commonHandles fuel true unindented ⟨n.tokens ofKey ++ rest, numbers, anchored⟩ =
      some (n, ⟨rest, numbers, anchored⟩) := by
  have hpos := n.length_tokens_pos h ofKey
  obtain ⟨fuel, rfl⟩ : ∃ f, fuel = f + 3 := ⟨fuel - 3, by omega⟩
  cases n with
  | scalar tag style text =>
    rw [tokens, List.append_assoc, List.singleton_append, next?_tagTokens h.1 rfl]
    rfl
  | sequence tag items =>
    cases items with
    | nil =>
      rw [tokens, List.append_assoc]
      refine (next?_tagTokens h.1 rfl (fuel + 2) unindented numbers anchored).trans ?_
      rfl
    | cons item items =>
      cases ofKey with
      | true =>
        obtain ⟨rfl, hrest⟩ := hofKey rfl
        rw [tokens, if_pos rfl, List.length_append] at hfuel
        have hitems : unindentedItems? _ (fuel + 1) ⟨itemTokens (item :: items) ++ rest, numbers, anchored⟩ = _ :=
          unindentedItems?_tokens (item :: items) h.2 (by omega) (Nat.succ_pos fuel) hrest
        rw [tokens, if_pos rfl, List.append_assoc]
        refine (next?_tagTokens h.1 rfl (fuel + 2) true numbers anchored).trans ?_
        exact congrArg (Option.map fun r : List Node × Reader => (Node.sequence tag r.1, r.2)) hitems
      | false =>
        have hlength : (Node.tokens false (.sequence tag (item :: items))).length =
            (tagTokens tag).length + ((itemTokens (item :: items)).length + 2) := by simp [tokens]
        rw [hlength] at hfuel
        have hitems :
            blockItems? _ (fuel + 1) ⟨itemTokens (item :: items) ++ .blockEnd :: rest, numbers, anchored⟩ = _ :=
          blockItems?_tokens (item :: items) h.2 (by omega) (Nat.succ_pos fuel)
        have htokens : Node.tokens false (.sequence tag (item :: items)) ++ rest =
            tagTokens tag ++ .blockSequence :: (itemTokens (item :: items) ++ .blockEnd :: rest) := by simp [tokens]
        rw [htokens]
        refine (next?_tagTokens h.1 rfl (fuel + 2) unindented numbers anchored).trans ?_
        exact congrArg (Option.map fun r : List Node × Reader => (Node.sequence tag r.1, r.2)) hitems
  | mapping tag members =>
    cases members with
    | nil =>
      rw [tokens, List.append_assoc]
      refine (next?_tagTokens h.1 rfl (fuel + 2) unindented numbers anchored).trans ?_
      rfl
    | cons member members =>
      have hlength : (Node.tokens ofKey (.mapping tag (member :: members))).length =
          (tagTokens tag).length + ((membersTokens (member :: members)).length + 2) := by simp [tokens]
      rw [hlength] at hfuel
      have hmembers :
          blockMembers? _ (fuel + 1) ⟨membersTokens (member :: members) ++ .blockEnd :: rest, numbers, anchored⟩ = _ :=
        blockMembers?_tokens (member :: members) h.2 (by omega) (Nat.succ_pos fuel)
      have htokens : Node.tokens ofKey (.mapping tag (member :: members)) ++ rest =
          tagTokens tag ++ .blockMapping :: (membersTokens (member :: members) ++ .blockEnd :: rest) := by simp [tokens]
      rw [htokens]
      refine (next?_tagTokens h.1 rfl (fuel + 2) unindented numbers anchored).trans ?_
      exact congrArg (Option.map fun r : List Member × Reader => (Node.mapping tag r.1, r.2)) hmembers
  | reference number => exact h.elim

/-- Items of a block sequence. -/
theorem blockItems?_tokens (items : List Node) (h : AreWritten items) {fuel : Nat} {rest : List Token}
    {numbers : Dict Nat} {anchored : List (Nat × Option Node)} (hfuel : 3 * (itemTokens items).length ≤ fuel + 2)
    (hpos : 0 < fuel) :
    blockItems? WrittenTag.commonHandles fuel ⟨itemTokens items ++ .blockEnd :: rest, numbers, anchored⟩ =
      some (items, ⟨rest, numbers, anchored⟩) := by
  obtain ⟨fuel, rfl⟩ : ∃ f, fuel = f + 1 := ⟨fuel - 1, by omega⟩
  cases items with
  | nil => rfl
  | cons item items =>
    have hitem := item.length_tokens_pos h.1 false
    rw [itemTokens, List.length_cons, List.length_append] at hfuel
    have hread : Reader.orEmpty [.entry, .blockEnd] (next? WrittenTag.commonHandles fuel true false)
        ⟨item.tokens false ++ (itemTokens items ++ .blockEnd :: rest), numbers, anchored⟩ =
          some (item, ⟨itemTokens items ++ .blockEnd :: rest, numbers, anchored⟩) :=
      (orEmpty_tokens h.1 (.inl ⟨rfl, rfl⟩) _ _ _ _).trans (next?_tokens item h.1 (by omega) fun h => nomatch h)
    have hmore : blockItems? _ fuel ⟨itemTokens items ++ .blockEnd :: rest, numbers, anchored⟩ = _ :=
      blockItems?_tokens items h.2 (by omega) (by omega)
    rw [itemTokens, List.cons_append, List.append_assoc]
    show (Reader.orEmpty _ _ _).bind _ = _
    refine (congrArg (Option.bind · _) hread).trans ?_
    exact congrArg (Option.bind · _) hmore

/-- Items of a block sequence that is indented as the key in front of it. -/
theorem unindentedItems?_tokens (items : List Node) (h : AreWritten items) {fuel : Nat} {rest : List Token}
    {numbers : Dict Nat} {anchored : List (Nat × Option Node)} (hfuel : 3 * (itemTokens items).length ≤ fuel + 2)
    (hpos : 0 < fuel) (hrest : rest.head? ≠ some .entry) :
    unindentedItems? WrittenTag.commonHandles fuel ⟨itemTokens items ++ rest, numbers, anchored⟩ =
      some (items, ⟨rest, numbers, anchored⟩) := by
  obtain ⟨fuel, rfl⟩ : ∃ f, fuel = f + 1 := ⟨fuel - 1, by omega⟩
  cases items with
  | nil =>
    rw [unindentedItems?]
    split
    next heq => exact absurd (congrArg List.head? heq) hrest
    next => rfl
  | cons item items =>
    have hitem := item.length_tokens_pos h.1 false
    rw [itemTokens, List.length_cons, List.length_append] at hfuel
    have hread : Reader.orEmpty [.entry, .key, .value, .blockEnd] (next? WrittenTag.commonHandles fuel true false)
        ⟨item.tokens false ++ (itemTokens items ++ rest), numbers, anchored⟩ =
          some (item, ⟨itemTokens items ++ rest, numbers, anchored⟩) :=
      (orEmpty_tokens h.1 (.inr (.inl ⟨rfl, rfl⟩)) _ _ _ _).trans
        (next?_tokens item h.1 (by omega) fun h => nomatch h)
    have hmore : unindentedItems? _ fuel ⟨itemTokens items ++ rest, numbers, anchored⟩ = _ :=
      unindentedItems?_tokens items h.2 (by omega) (by omega) hrest
    rw [itemTokens, List.cons_append, List.append_assoc]
    show (Reader.orEmpty _ _ _).bind _ = _
    refine (congrArg (Option.bind · _) hread).trans ?_
    exact congrArg (Option.bind · _) hmore

/-- Members of a block mapping. -/
theorem blockMembers?_tokens (members : List Member) (h : MembersWritten members) {fuel : Nat} {rest : List Token}
    {numbers : Dict Nat} {anchored : List (Nat × Option Node)} (hfuel : 3 * (membersTokens members).length ≤ fuel + 2)
    (hpos : 0 < fuel) :
    blockMembers? WrittenTag.commonHandles fuel ⟨membersTokens members ++ .blockEnd :: rest, numbers, anchored⟩ =
      some (members, ⟨rest, numbers, anchored⟩) := by
  obtain ⟨fuel, rfl⟩ : ∃ f, fuel = f + 1 := ⟨fuel - 1, by omega⟩
  cases members with
  | nil => rfl
  | cons member members =>
    have hnext : (membersTokens members ++ .blockEnd :: rest).head? ≠ some .entry := by
      cases members with
      | nil => exact fun h => nomatch h
      | cons member' members =>
        rw [membersTokens, memberTokens_eq]
        exact fun h => nomatch h
    rw [membersTokens, List.length_append] at hfuel
    have hlength : 2 ≤ (memberTokens member).length := by
      rw [memberTokens_eq, List.length_cons, List.length_append, List.length_cons]
      omega
    obtain ⟨hkey, hvalue⟩ := member?_tokens member h.1 (show 3 * (memberTokens member).length ≤ fuel + 3 by omega) hnext
      numbers anchored
    have hmore : blockMembers? _ fuel ⟨membersTokens members ++ .blockEnd :: rest, numbers, anchored⟩ = _ :=
      blockMembers?_tokens members h.2 (by omega) (by omega)
    rw [membersTokens, memberTokens_eq, List.append_assoc, List.cons_append, List.append_assoc, List.cons_append]
    show (Reader.orEmpty _ _ _).bind _ = _
    refine (congrArg (Option.bind · _) hkey).trans ?_
    refine (congrArg (Option.bind · _) hvalue).trans ?_
    show (blockMembers? WrittenTag.commonHandles fuel _).bind _ = _
    rw [hmore]
    cases member
    rfl

/-- Key and value of a member of a block mapping. -/
theorem member?_tokens (member : Member) (h : MemberWritten member) {fuel : Nat} {rest : List Token}
    (hfuel : 3 * (memberTokens member).length ≤ fuel + 3) (hrest : rest.head? ≠ some .entry) (numbers : Dict Nat)
    (anchored : List (Nat × Option Node)) :
    Reader.orEmpty [.key, .value, .blockEnd] (next? WrittenTag.commonHandles fuel true true)
        ⟨member.key.tokens false ++ .value :: (member.value.tokens (simpleKey? member.key).isSome ++ rest), numbers,
          anchored⟩ =
      some (member.key, ⟨.value :: (member.value.tokens (simpleKey? member.key).isSome ++ rest), numbers, anchored⟩) ∧
    Reader.value? [.key, .value, .blockEnd] (next? WrittenTag.commonHandles fuel true true)
        ⟨.value :: (member.value.tokens (simpleKey? member.key).isSome ++ rest), numbers, anchored⟩ =
      some (member.value, ⟨rest, numbers, anchored⟩) := by
  obtain ⟨key, value⟩ := member
  obtain ⟨hkey, hvalue⟩ := h
  rw [memberTokens, List.length_cons, List.length_append, List.length_cons] at hfuel
  refine ⟨(orEmpty_tokens hkey.isWritten (.inr (.inr rfl)) _ _ _ _).trans
    (next?_tokens key hkey.isWritten (by omega) fun h => nomatch h), ?_⟩
  have hlength : 3 * (value.tokens (simpleKey? key).isSome).length ≤ fuel := by omega
  exact (orEmpty_tokens hvalue (.inr (.inr rfl)) _ _ _ _).trans
    (next?_tokens value hvalue hlength fun _ => ⟨rfl, hrest⟩)

end

/-! ## Documents -/

/-- **The text of a document is read as its node**, which has no anchors. -/
theorem ofText?_render {members : List Member} (h : MembersWritten members) (hne : members ≠ []) :
    Document.ofText? (Node.mapping none members).render = some ⟨.mapping none members, []⟩ := by
  have hwritten : (Node.mapping none members).IsWritten := ⟨(fun _ h => nomatch h), h⟩
  have hread : next? WrittenTag.commonHandles (Document.fuelFor ((Node.mapping none members).tokens false)) true false
      ⟨(Node.mapping none members).tokens false ++ [], Dict.empty, []⟩ =
        some (.mapping none members, ⟨[], Dict.empty, []⟩) :=
    next?_tokens (.mapping none members) hwritten (Nat.le_add_right _ 3) fun h => nomatch h
  rw [List.append_nil] at hread
  rw [Document.ofText?, scan?_render h hne, Option.bind_some]
  have htokens : (Node.mapping none members).tokens false =
      .blockMapping :: (membersTokens members ++ [.blockEnd]) := by
    obtain ⟨member, members, rfl⟩ := List.exists_cons_of_ne_nil hne
    rfl
  have hroot : Document.root? WrittenTag.commonHandles false ((Node.mapping none members).tokens false) =
      some (.mapping none members, ⟨[], Dict.empty, []⟩) := hread
  rw [htokens] at hroot ⊢
  show (Document.root? WrittenTag.commonHandles false _).bind _ = _
  exact congrArg (Option.bind · _) hroot

end Node

end BoundSql.Yaml
