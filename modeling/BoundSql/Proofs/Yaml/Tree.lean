import BoundSql.Proofs.Yaml.Signs

/-!
# Scanning written nodes

The tokens of a node follow from the node alone (`Node.tokens`). Whatever stands around it, a written node is scanned to
just these tokens (`Node.leads_print`), so that a document is (`Node.scan?_render`).
-/

namespace BoundSql.Yaml

open Scanner (outside Leads Idle Opens tagTokens)

namespace Node

/-! ## Nodes that are written -/

/-- Keys that are written: scalars without a tag. -/
def IsKey (key : Node) : Prop := ∃ style text, key = .scalar none style text ∧ style.Holds text.toList

mutual

/-- Nodes whose texts are held by their styles and whose tags have plain names. -/
def IsWritten : Node → Prop
  | .scalar tag style text => (∀ t ∈ tag, t.IsPlain) ∧ style.Holds text.toList
  | .sequence tag items => (∀ t ∈ tag, t.IsPlain) ∧ AreWritten items
  | .mapping tag members => (∀ t ∈ tag, t.IsPlain) ∧ MembersWritten members
  | .reference _ => False

/-- The same for items. -/
def AreWritten : List Node → Prop
  | [] => True
  | item :: items => item.IsWritten ∧ AreWritten items

/-- The same for members. -/
def MembersWritten : List Member → Prop
  | [] => True
  | member :: members => MemberWritten member ∧ MembersWritten members

/-- The same for a member. -/
def MemberWritten : Member → Prop
  | ⟨key, value⟩ => key.IsKey ∧ value.IsWritten

end

theorem IsKey.isWritten {key : Node} (h : key.IsKey) : key.IsWritten := by
  obtain ⟨style, text, rfl, hholds⟩ := h
  exact ⟨(fun _ h => nomatch h), hholds⟩

/-! ## Tokens -/

mutual

/-- Tokens of a node behind its sign. -/
def tokens (ofKey : Bool) : Node → List Token
  | .scalar tag style text => tagTokens tag ++ [.scalar style text]
  | .sequence tag [] => tagTokens tag ++ [.flowSequence, .flowSequenceEnd]
  | .sequence tag (item :: items) =>
    tagTokens tag ++
      if ofKey then itemTokens (item :: items) else .blockSequence :: (itemTokens (item :: items) ++ [.blockEnd])
  | .mapping tag [] => tagTokens tag ++ [.flowMapping, .flowMappingEnd]
  | .mapping tag (member :: members) =>
    tagTokens tag ++ .blockMapping :: (membersTokens (member :: members) ++ [.blockEnd])
  | .reference number => [.reference (toString number)]

/-- Tokens of items. -/
def itemTokens : List Node → List Token
  | [] => []
  | item :: items => .entry :: (tokens false item ++ itemTokens items)

/-- Tokens of members. -/
def membersTokens : List Member → List Token
  | [] => []
  | member :: members => memberTokens member ++ membersTokens members

/-- Tokens of a member. -/
def memberTokens : Member → List Token
  | ⟨key, value⟩ => .key :: (tokens false key ++ .value :: tokens (simpleKey? key).isSome value)

end

/-! ## Beginnings -/

/-- What stands between the sign in front of a collection and the place where the collection begins. -/
def gap (ofKey : Bool) (tag : Option Tag) (start : Nat) : List Char :=
  if ofKey || tag.isSome then '\n' :: spaces start else [' ']

theorem print_sequence_cons (column : Nat) (ofKey : Bool) (tag : Option Tag) (item : Node) (items : List Node) :
    print column ofKey (.sequence tag (item :: items)) = tagText tag ++
      gap ofKey tag (if ofKey then column else column + 2) ++
        printItems (if ofKey then column else column + 2) (item :: items) := by
  rw [print]
  rfl

theorem print_mapping_cons (column : Nat) (ofKey : Bool) (tag : Option Tag) (member : Member) (members : List Member) :
    print column ofKey (.mapping tag (member :: members)) =
      tagText tag ++ gap ofKey tag (column + 2) ++ printMembers (column + 2) (member :: members) := by
  rw [print]
  rfl

theorem isSeparator_print (column : Nat) (ofKey : Bool) (n : Node) (rest : List Char) :
    isSeparator ((n.print column ofKey ++ rest).headD endChar) := by
  have htag (tag : Option Tag) : tagText tag = [] ∨ ∃ cs, tagText tag = ' ' :: cs := by
    cases tag with
    | none => exact .inl rfl
    | some tag =>
      rw [tagText]
      split
      · split
        · exact .inr ⟨_, rfl⟩
        · exact .inr ⟨_, rfl⟩
      · exact .inr ⟨_, rfl⟩
  have hspace {tag : Option Tag} {more : List Char} (hmore : ∃ c cs, more = c :: cs ∧ isSeparator c) :
      isSeparator ((tagText tag ++ more ++ rest).headD endChar) := by
    obtain ⟨c, cs, rfl, hc⟩ := hmore
    obtain h | ⟨ds, h⟩ := htag tag <;> rw [h]
    · exact hc
    · rfl
  have hgap (tag : Option Tag) (start : Nat) (more : List Char) :
      ∃ c cs, gap ofKey tag start ++ more = c :: cs ∧ isSeparator c := by
    rw [gap]
    split
    · exact ⟨'\n', spaces start ++ more, rfl, rfl⟩
    · exact ⟨' ', more, rfl, rfl⟩
  cases n with
  | scalar tag style text => exact hspace ⟨' ', _, rfl, rfl⟩
  | sequence tag items =>
    cases items with
    | nil => exact hspace ⟨' ', _, rfl, rfl⟩
    | cons item items =>
      rw [print_sequence_cons, List.append_assoc (tagText tag)]
      exact hspace (hgap tag _ _)
  | mapping tag members =>
    cases members with
    | nil => exact hspace ⟨' ', _, rfl, rfl⟩
    | cons member members =>
      rw [print_mapping_cons, List.append_assoc (tagText tag)]
      exact hspace (hgap tag _ _)
  | reference number => rfl

theorem startsToken_printMember {column : Nat} {member : Member} (h : MemberWritten member) (rest : List Char) :
    ∀ c ∈ (printMember column member ++ rest).head?, startsToken c := by
  obtain ⟨key, value⟩ := member
  obtain ⟨⟨style, text, rfl, hholds⟩, -⟩ := h
  intro c hc
  rw [printMember] at hc
  split at hc
  next written hwritten =>
    rw [simpleKey?] at hwritten
    split at hwritten
    next hsimple =>
      simp only [Bool.and_eq_true, Bool.not_eq_true', List.any_eq_false, Bool.not_eq_true] at hsimple
      obtain ⟨line, hline, -⟩ := Style.exists_line hholds hsimple.2
      rw [hline, List.dropLast_concat] at hwritten
      obtain rfl := Option.some.inj hwritten
      have hstart := Scanner.startsToken_write hholds hsimple.2 0
      rw [hline] at hstart
      cases line with
      | nil =>
        obtain rfl := Option.some.inj hc
        rfl
      | cons d ds =>
        obtain rfl := Option.some.inj hc
        exact hstart d rfl
    next => cases hwritten
  next =>
    obtain rfl := Option.some.inj hc
    rfl

/-! ## Scanning -/

variable {p : Place} {written rest : List Char} {column start : Nat} {columns columns' : List Nat} {ofKey : Bool}
variable {before before' : List Token} {key : Option KeyStart} {keyAllowed : Bool} {tag : Option Tag}

/-- Whether lines are scanned to the beginning of the next line, and what the tokens and the columns are there. -/
def Passes (p : Place) (written rest : List Char) (s : Scanner) (before : List Token) (columns : List Nat) : Prop :=
  (p.after written).column = 0 ∧ p.line < (p.after written).line ∧ ∃ key, Idle key (p.after written).line ∧
    Leads s (p.whole (written ++ rest)) (outside before columns key true) ((p.after written).whole rest)

namespace Passes

variable {s s' : Scanner} {first second : List Char}

/-- Lines that begin behind something else. -/
theorem of_leads (first : List Char) (h : Passes (p.after first) second rest s' before columns)
    (hline : p.line ≤ (p.after first).line)
    (hleads : Leads s (p.whole (first ++ (second ++ rest))) s' ((p.after first).whole (second ++ rest))) :
    Passes p (first ++ second) rest s before columns := by
  obtain ⟨hcolumn, hlines, key, hidle, hleads'⟩ := h
  rw [Passes, Place.after_append, List.append_assoc]
  exact ⟨hcolumn, Nat.lt_of_le_of_lt hline hlines, key, hidle, hleads.trans hleads'⟩

/-- Lines that begin behind a space. -/
theorem space (h : Passes (p.step ' ') second rest s before columns) : Passes p (' ' :: second) rest s before columns :=
  of_leads [' '] h (Nat.le_refl _) (Scanner.leads_space s)

/-- Lines behind other lines. -/
theorem append (h : Passes p first (second ++ rest) s before columns)
    (h' : ∀ key, Idle key (p.after first).line →
      Passes (p.after first) second rest (outside before columns key true) before' columns') :
    Passes p (first ++ second) rest s before' columns' := by
  obtain ⟨-, hlines, key, hidle, hleads⟩ := h
  exact of_leads first (h' key hidle) hlines.le hleads

/-- The innermost collection ends with its last line. -/
theorem ends (h : Passes p written rest s before (start :: columns)) (hrest : Dedents column rest)
    (hstart : column < start) :
    Passes p written rest s (.blockEnd :: before) columns := by
  obtain ⟨hcolumn, hlines, key, hidle, hleads⟩ := h
  exact ⟨hcolumn, hlines, key, hidle, hleads.trans (Scanner.leads_dedent hrest hstart hcolumn)⟩

end Passes

theorem leads_tagText (htag : ∀ t ∈ tag, t.IsPlain) (hcolumn : column < p.column) (hidle : Idle key (p.line + 1))
    (hrest : isSeparator (rest.headD endChar)) (before : List Token) (columns : List Nat) (keyAllowed : Bool) :
    ∃ key' keyAllowed', Idle key' (p.line + 1) ∧
      (tag = none → keyAllowed' = keyAllowed) ∧
        Leads (outside before (column :: columns) key keyAllowed) (p.whole (tagText tag ++ rest))
          (outside ((tagTokens tag).reverse ++ before) (column :: columns) key' keyAllowed')
          ((p.after (tagText tag)).whole rest) := by
  cases tag with
  | none => exact ⟨key, keyAllowed, hidle, fun _ => rfl, .of_eq (fun _ => rfl) (Nat.le_refl _)⟩
  | some tag =>
    obtain ⟨key', hidle', hleads⟩ := Scanner.leads_tag (htag tag rfl) hcolumn hidle hrest
    exact ⟨key', false, hidle', (fun h => nomatch h), hleads⟩

theorem after_tagText (htag : ∀ t ∈ tag, t.IsPlain) (p : Place) :
    (p.after (tagText tag)).line = p.line ∧ p.column ≤ (p.after (tagText tag)).column := by
  have hbreak := Scanner.not_isBreak_tagText htag
  rw [Place.line_after_of_not_isBreak hbreak, Place.column_after_of_not_isBreak hbreak]
  exact ⟨rfl, Nat.le_add_right _ _⟩

theorem not_isBreak_spaces (column : Nat) : ∀ c ∈ spaces column, isBreak c = false :=
  Scalar.isBreak_replicate_space column

/-- The beginning of a collection. -/
theorem leads_gap (htag : ∀ t ∈ tag, t.IsPlain) (hcolumn : column < p.column) (hidle : Idle key (p.line + 1))
    (hsign : ofKey = false → p.column = column + 1 ∧ keyAllowed = true ∧ start = column + 2) (before : List Token)
    (columns : List Nat) (rest : List Char) :
    (p.after (tagText tag ++ gap ofKey tag start)).column = start ∧
      p.line ≤ (p.after (tagText tag ++ gap ofKey tag start)).line ∧
        ∃ key', Idle key' ((p.after (tagText tag ++ gap ofKey tag start)).line + 1) ∧
          Leads (outside before (column :: columns) key keyAllowed)
            (p.whole (tagText tag ++ gap ofKey tag start ++ rest))
            (outside ((tagTokens tag).reverse ++ before) (column :: columns) key' true)
            ((p.after (tagText tag ++ gap ofKey tag start)).whole rest) := by
  have hseparator : isSeparator ((gap ofKey tag start ++ rest).headD endChar) := by
    rw [gap]
    split <;> rfl
  obtain ⟨hline, hcolumn'⟩ := after_tagText htag p
  obtain ⟨key', keyAllowed', hidle', hallowed, hleads⟩ :=
    leads_tagText htag hcolumn hidle hseparator before columns keyAllowed
  rw [List.append_assoc, Place.after_append]
  by_cases hgap : (ofKey || tag.isSome) = true
  · have hlines : gap ofKey tag start = '\n' :: spaces start := if_pos hgap
    rw [hlines] at hleads ⊢
    have hplace : ((p.after (tagText tag)).after ('\n' :: spaces start)).line = p.line + 1 := by
      rw [Place.after_cons, Place.line_after_of_not_isBreak (not_isBreak_spaces start)]
      exact congrArg (· + 1) hline
    refine ⟨?_, by omega, key', hidle'.mono (by omega), ?_⟩
    · rw [Place.after_cons, Place.column_after_of_not_isBreak (not_isBreak_spaces start), spaces, List.length_replicate]
      exact Nat.zero_add start
    · exact hleads.trans ((Scanner.leads_newline keyAllowed').trans (Scanner.leads_spaces _ start))
  · simp only [Bool.not_eq_true, Bool.or_eq_false_iff] at hgap
    obtain ⟨rfl, hnone⟩ := hgap
    obtain rfl : tag = none := by simpa using hnone
    obtain ⟨hp, rfl, rfl⟩ := hsign rfl
    obtain rfl := hallowed rfl
    refine ⟨congrArg (· + 1) hp, Nat.le_refl _, key', hidle', ?_⟩
    exact hleads.trans (Scanner.leads_space _)

/-- A scalar. -/
theorem passes_scalar {style : Style} {cs : List Char} (htag : ∀ t ∈ tag, t.IsPlain) (hholds : style.Holds cs)
    (hcolumn : column < p.column) (hidle : Idle key (p.line + 1)) (hrest : Dedents column rest) (before : List Token)
    (columns : List Nat) (keyAllowed : Bool) :
    Passes p (tagText tag ++ ' ' :: style.write (column + 2) cs) rest
      (outside before (column :: columns) key keyAllowed)
      (.scalar style (String.ofList cs) :: ((tagTokens tag).reverse ++ before)) (column :: columns) := by
  obtain ⟨hline, hcolumn'⟩ := after_tagText htag p
  obtain ⟨key', keyAllowed', hidle', -, htagged⟩ := leads_tagText htag hcolumn hidle
    (show isSeparator ((' ' :: (style.write (column + 2) cs ++ rest)).headD endChar) from rfl) before columns keyAllowed
  have hsign : column < ((p.after (tagText tag)).step ' ').column := by
    show column < (p.after (tagText tag)).column + 1
    omega
  have hidle'' : Idle key' (((p.after (tagText tag)).step ' ').line + 1) := by
    show Idle key' ((p.after (tagText tag)).line + 1)
    rwa [hline]
  obtain ⟨key'', hkey, hleads⟩ := Scanner.leads_scalar hholds hsign hidle'' hrest ((tagTokens tag).reverse ++ before)
    columns keyAllowed'
  have hlines : ((p.after (tagText tag)).step ' ').line < (((p.after (tagText tag)).step ' ').after
        (style.write (column + 2) cs)).line ∧
      (((p.after (tagText tag)).step ' ').after (style.write (column + 2) cs)).column = 0 := by
    obtain ⟨line, b, hwrite, hb⟩ := style.exists_lineEnd (column + 2) cs
    rw [hwrite, Place.after_append, Place.after_cons, Place.step_of_isBreak hb]
    exact ⟨Nat.lt_succ_of_le (Place.line_le_after _ line), rfl⟩
  have hwritten : Passes ((p.after (tagText tag)).step ' ') (style.write (column + 2) cs) rest
      (outside ((tagTokens tag).reverse ++ before) (column :: columns) key' keyAllowed')
      (.scalar style (String.ofList cs) :: ((tagTokens tag).reverse ++ before)) (column :: columns) :=
    ⟨hlines.2, hlines.1, key'', hkey.mono hlines.1, hleads⟩
  exact Passes.of_leads (tagText tag) hwritten.space hline.ge htagged

/-- An empty collection. -/
theorem passes_empty {first last : Char} {t t' : Token} (hpair : Scanner.IsEmptyPair first last t t')
    (htag : ∀ t ∈ tag, t.IsPlain) (hcolumn : column < p.column) (hidle : Idle key (p.line + 1)) :
    Passes p (tagText tag ++ [' ', first, last, '\n']) rest (outside before (column :: columns) key keyAllowed)
      (t' :: t :: ((tagTokens tag).reverse ++ before)) (column :: columns) := by
  obtain ⟨hline, hcolumn'⟩ := after_tagText htag p
  obtain ⟨key', keyAllowed', hidle', -, htagged⟩ := leads_tagText htag hcolumn hidle
    (show isSeparator ((' ' :: first :: last :: '\n' :: rest).headD endChar) from rfl) before columns keyAllowed
  rw [← hline] at hidle'
  obtain ⟨key'', hkey, hleads⟩ := Scanner.leads_empty hpair (hcolumn.trans_le hcolumn') hidle'
    ((tagTokens tag).reverse ++ before) columns keyAllowed' rest
  have hplace : ((p.after (tagText tag)).after [' ', first, last, '\n']).column = 0 ∧
      ((p.after (tagText tag)).after [' ', first, last, '\n']).line = (p.after (tagText tag)).line + 1 := by
    cases hpair <;> exact ⟨rfl, rfl⟩
  exact Passes.of_leads (tagText tag) ⟨hplace.1, by omega, key'', hplace.2 ▸ hkey, hleads⟩ hline.ge htagged

/-- Lines after the first one of a collection. -/
def further (column : Nat) (lines : List Char) (isLast : Bool) : List Char :=
  if isLast then [] else spaces column ++ lines

theorem printItems_cons (column : Nat) (item : Node) (items : List Node) : printItems column (item :: items) =
    '-' :: (print column false item ++ further column (printItems column items) items.isEmpty) := by
  cases items <;> rfl

theorem printMembers_cons (column : Nat) (member : Member) (members : List Member) :
    printMembers column (member :: members) =
      printMember column member ++ further column (printMembers column members) members.isEmpty := by
  cases members <;> rfl

theorem dedents_further {lines : List Char} {isLast : Bool}
    (hlines : isLast = false → ∀ c ∈ (lines ++ rest).head?, startsToken c) (hrest : Dedents column rest) :
    Dedents column (further column lines isLast ++ rest) := by
  cases isLast with
  | true => exact hrest
  | false => exact ⟨column, lines ++ rest, List.append_assoc _ _ _, Nat.le_refl _, hlines rfl⟩

/-- Further lines behind the first ones. -/
theorem Passes.further {lines : List Char} {isLast : Bool} {s : Scanner}
    (h : Passes p written (Node.further column lines isLast ++ rest) s before (column :: columns))
    (hnone : isLast → before' = before)
    (hlines : isLast = false → ∀ {q : Place} {key : Option KeyStart}, q.column = column → Idle key q.line →
      Passes q lines rest (outside before (column :: columns) key true) before' (column :: columns)) :
    Passes p (written ++ Node.further column lines isLast) rest s before' (column :: columns) := by
  cases isLast with
  | true =>
    obtain rfl := hnone rfl
    rw [show Node.further column lines true = [] from rfl, List.append_nil]
    exact h
  | false =>
    have hcolumn := h.1
    refine h.append fun key hidle => ?_
    have hspaces := not_isBreak_spaces column
    refine Passes.of_leads (spaces column) (hlines rfl ?_ ?_) ?_ (Scanner.leads_spaces _ column)
    · rw [Place.column_after_of_not_isBreak hspaces, hcolumn, spaces, List.length_replicate, Nat.zero_add]
    · rw [Place.line_after_of_not_isBreak hspaces]
      exact hidle
    · rw [Place.line_after_of_not_isBreak hspaces]

/-- A collection that stands two columns further in. -/
theorem passes_collection {t : Token} {lines : List Char} {content : List Token} (htag : ∀ t ∈ tag, t.IsPlain)
    (hcolumn : column < p.column) (hidle : Idle key (p.line + 1))
    (hsign : ofKey = false → p.column = column + 1 ∧ keyAllowed = true) (hrest : Dedents column rest)
    (hlines : ∀ {q : Place} {before before' : List Token} {columns columns' : List Nat} {key : Option KeyStart},
      q.column = column + 2 → Opens t (column + 2) before columns before' columns' → Idle key (q.line + 1) →
        Passes q lines rest (outside before columns key true) (content.reverse ++ before') columns') :
    Passes p (tagText tag ++ gap ofKey tag (column + 2) ++ lines) rest
      (outside before (column :: columns) key keyAllowed)
      ((tagTokens tag ++ t :: (content ++ [Token.blockEnd])).reverse ++ before) (column :: columns) := by
  obtain ⟨hplace, hline, key', hidle', hleads⟩ := leads_gap htag hcolumn hidle
    (fun h => ⟨(hsign h).1, (hsign h).2, rfl⟩) before columns (lines ++ rest)
  have hopens : Opens t (column + 2) ((tagTokens tag).reverse ++ before) (column :: columns)
      (t :: ((tagTokens tag).reverse ++ before)) ((column + 2) :: column :: columns) :=
    .now _ fun d hd => by
      obtain rfl := Option.some.inj hd
      omega
  have hends := (hlines hplace hopens hidle').ends hrest (Nat.lt_add_of_pos_right Nat.two_pos)
  refine Passes.of_leads _ ?_ hline hleads
  simpa using hends

mutual

/-- **A written node is scanned to its tokens**, whatever stands around it. -/
theorem passes_print (n : Node) (h : n.IsWritten) {p : Place} {rest : List Char} {column : Nat} {ofKey : Bool}
    {before : List Token} {columns : List Nat} {key : Option KeyStart} {keyAllowed : Bool}
    (hcolumn : column < p.column) (hidle : Idle key (p.line + 1))
    (hsign : ofKey = false → p.column = column + 1 ∧ keyAllowed = true) (hrest : Dedents column rest) :
    Passes p (n.print column ofKey) rest (outside before (column :: columns) key keyAllowed)
      ((n.tokens ofKey).reverse ++ before) (column :: columns) := by
  cases n with
  | scalar tag style text =>
    obtain ⟨htag, hholds⟩ := h
    have hscalar := passes_scalar htag hholds hcolumn hidle hrest before columns keyAllowed
    rw [String.ofList_toList] at hscalar
    rw [print, tokens, List.reverse_append]
    exact hscalar
  | sequence tag items =>
    obtain ⟨htag, hitems⟩ := h
    cases items with
    | nil =>
      rw [print, tokens, List.reverse_append]
      exact passes_empty .sequence htag hcolumn hidle
    | cons item items =>
      cases ofKey with
      | true =>
        -- the items of a value stand in the column of its key, and nothing marks their end
        have hkey : true = false → p.column = column + 1 ∧ keyAllowed = true ∧ column = column + 2 := fun h => nomatch h
        obtain ⟨hplace, hline, key', hidle', hleads⟩ := leads_gap htag hcolumn hidle hkey before columns
          (printItems column (item :: items) ++ rest)
        have hlines := passes_printItems (item :: items) hitems (List.cons_ne_nil item items) hplace
          (.already ((tagTokens tag).reverse ++ before) columns) hidle' hrest
        rw [print_sequence_cons, tokens, List.reverse_append, List.append_assoc _ (tagTokens tag).reverse]
        exact Passes.of_leads _ hlines hline hleads
      | false =>
        rw [print_sequence_cons, tokens]
        exact passes_collection htag hcolumn hidle hsign hrest fun hplace hopens hidle =>
          passes_printItems (item :: items) hitems (List.cons_ne_nil item items) hplace hopens hidle
            (hrest.mono (Nat.le_add_right column 2))
  | mapping tag members =>
    obtain ⟨htag, hmembers⟩ := h
    cases members with
    | nil =>
      rw [print, tokens, List.reverse_append]
      exact passes_empty .mapping htag hcolumn hidle
    | cons member members =>
      rw [print_mapping_cons, tokens]
      exact passes_collection htag hcolumn hidle hsign hrest fun hplace hopens hidle =>
        passes_printMembers (member :: members) hmembers (List.cons_ne_nil member members) hplace hopens hidle
          (hrest.mono (Nat.le_add_right column 2))
  | reference number => exact h.elim

/-- Items of a sequence that begins at their column, or has begun there. -/
theorem passes_printItems (items : List Node) (h : AreWritten items) (hne : items ≠ []) {p : Place} {rest : List Char}
    {column : Nat} {before before' : List Token} {columns columns' : List Nat} {key : Option KeyStart}
    (hcolumn : p.column = column) (hopens : Opens .blockSequence column before columns before' columns')
    (hidle : Idle key (p.line + 1)) (hrest : Dedents column rest) :
    Passes p (printItems column items) rest (outside before columns key true) ((itemTokens items).reverse ++ before')
      columns' := by
  cases items with
  | nil => exact absurd rfl hne
  | cons item items =>
    obtain ⟨outer, rfl⟩ := hopens.exists_columns
    subst hcolumn
    have hfurther : Dedents p.column (further p.column (printItems p.column items) items.isEmpty ++ rest) :=
      dedents_further (fun hitems => by
        cases items with
        | nil => cases hitems
        | cons item' items =>
          intro c hc
          rw [printItems_cons] at hc
          obtain rfl := Option.some.inj hc
          rfl) hrest
    have hitem : Passes (p.step '-') (item.print p.column false)
        (further p.column (printItems p.column items) items.isEmpty ++ rest)
        (outside (.entry :: before') (p.column :: outer) none true) ((item.tokens false).reverse ++ .entry :: before')
        (p.column :: outer) :=
      passes_print item h.1 (Nat.lt_succ_self p.column) (Scanner.idle_none _) (fun _ => ⟨rfl, rfl⟩) hfurther
    have hlines : Passes (p.step '-') _ rest _
        ((itemTokens items).reverse ++ ((item.tokens false).reverse ++ .entry :: before')) (p.column :: outer) :=
      hitem.further (fun hnil => by rw [List.isEmpty_iff.1 hnil]; rfl) fun hcons _ _ hq hidle =>
        passes_printItems items h.2 (by simpa using hcons) hq (.already _ outer) (hidle.mono (Nat.le_succ _)) hrest
    rw [printItems_cons]
    have hentry := Scanner.leads_entry hopens hidle (isSeparator_print p.column false item
      (further p.column (printItems p.column items) items.isEmpty ++ rest))
    have hall := Passes.of_leads ['-'] hlines (Nat.le_refl _) (by simpa using hentry)
    simpa [itemTokens] using hall

/-- Members of a mapping that begins at their column, or has begun there. -/
theorem passes_printMembers (members : List Member) (h : MembersWritten members) (hne : members ≠ []) {p : Place}
    {rest : List Char} {column : Nat} {before before' : List Token} {columns columns' : List Nat}
    {key : Option KeyStart} (hcolumn : p.column = column)
    (hopens : Opens .blockMapping column before columns before' columns') (hidle : Idle key (p.line + 1))
    (hrest : Dedents column rest) :
    Passes p (printMembers column members) rest (outside before columns key true)
      ((membersTokens members).reverse ++ before') columns' := by
  cases members with
  | nil => exact absurd rfl hne
  | cons member members =>
    obtain ⟨outer, rfl⟩ := hopens.exists_columns
    have hfurther : Dedents column (further column (printMembers column members) members.isEmpty ++ rest) :=
      dedents_further (fun hmembers => by
        cases members with
        | nil => cases hmembers
        | cons member' members =>
          rw [printMembers_cons, List.append_assoc]
          exact startsToken_printMember h.2.1 _) hrest
    have hmember := passes_printMember member h.1 hcolumn hopens hidle hfurther
    have hlines : Passes p _ rest _ ((membersTokens members).reverse ++ ((memberTokens member).reverse ++ before'))
        (column :: outer) :=
      hmember.further (fun hnil => by rw [List.isEmpty_iff.1 hnil]; rfl) fun hcons _ _ hq hidle =>
        passes_printMembers members h.2 (by simpa using hcons) hq (.already _ outer) (hidle.mono (Nat.le_succ _)) hrest
    rw [printMembers_cons]
    simpa [membersTokens] using hlines

/-- One member. -/
theorem passes_printMember (member : Member) (h : MemberWritten member) {p : Place} {rest : List Char} {column : Nat}
    {before before' : List Token} {columns columns' : List Nat} {key : Option KeyStart} (hcolumn : p.column = column)
    (hopens : Opens .blockMapping column before columns before' columns') (hidle : Idle key (p.line + 1))
    (hrest : Dedents column rest) :
    Passes p (printMember column member) rest (outside before columns key true)
      ((memberTokens member).reverse ++ before')
      columns' := by
  obtain ⟨keyNode, value⟩ := member
  obtain ⟨hkey, hvalue⟩ := h
  obtain ⟨outer, rfl⟩ := hopens.exists_columns
  subst hcolumn
  rw [printMember, memberTokens]
  cases hsimple : simpleKey? keyNode with
  | some written =>
    obtain ⟨style, text, rfl, hholds⟩ := hkey
    obtain ⟨hleads, hbreak⟩ := Scanner.leads_simpleKey hsimple hholds hopens hidle
      (isSeparator_print p.column true value rest)
    have hplace : p.after (written ++ [':']) = (p.after written).step ':' := Place.after_append
    have hline : (p.after (written ++ [':'])).line = p.line := by
      rw [hplace]
      exact Place.line_after_of_not_isBreak hbreak
    have hcolumn : p.column < (p.after (written ++ [':'])).column := by
      rw [hplace]
      show p.column < (p.after written).column + 1
      rw [Place.column_after_of_not_isBreak hbreak]
      omega
    have hlines : Passes (p.after (written ++ [':'])) (value.print p.column true) rest
        (outside (.value :: .scalar style text :: .key :: before') (p.column :: outer) none false)
        ((value.tokens true).reverse ++ .value :: .scalar style text :: .key :: before') (p.column :: outer) :=
      passes_print value hvalue hcolumn (Scanner.idle_none _) (fun h => nomatch h) hrest
    have hall := Passes.of_leads (written ++ [':']) hlines hline.ge (by simpa using hleads)
    simpa [tokens, tagTokens] using hall
  | none =>
    have hfurther : Dedents p.column (further p.column (':' :: value.print p.column false) false ++ rest) :=
      dedents_further (fun _ c hc => by
        obtain rfl := Option.some.inj hc
        rfl) hrest
    have hkeyLines : Passes (p.step '?') (keyNode.print p.column false)
        (further p.column (':' :: value.print p.column false) false ++ rest)
        (outside (.key :: before') (p.column :: outer) none true) ((keyNode.tokens false).reverse ++ .key :: before')
        (p.column :: outer) :=
      passes_print keyNode hkey.isWritten (Nat.lt_succ_self p.column) (Scanner.idle_none _)
        (fun _ => ⟨rfl, rfl⟩) hfurther
    have hlines : Passes (p.step '?') _ rest _
        ((value.tokens false).reverse ++ .value :: ((keyNode.tokens false).reverse ++ .key :: before'))
        (p.column :: outer) :=
      hkeyLines.further (fun h => nomatch h) fun _ q key hq hidle => by
        have hvalueLines : Passes (q.step ':') (value.print p.column false) rest
            (outside (.value :: ((keyNode.tokens false).reverse ++ .key :: before')) (p.column :: outer) key true)
            ((value.tokens false).reverse ++ .value :: ((keyNode.tokens false).reverse ++ .key :: before'))
            (p.column :: outer) :=
          passes_print value hvalue (by show p.column < q.column + 1; omega) (hidle.mono (Nat.le_succ _))
            (fun _ => ⟨by show q.column + 1 = p.column + 1; omega, rfl⟩) hrest
        have hcolon := Scanner.leads_value hidle (isSeparator_print p.column false value rest)
          ((keyNode.tokens false).reverse ++ .key :: before') outer
        rw [hq] at hcolon
        exact Passes.of_leads [':'] hvalueLines (Nat.le_refl _) hcolon
    have hquestion := Scanner.leads_key hopens hidle (isSeparator_print p.column false keyNode
      (further p.column (':' :: value.print p.column false) false ++ rest))
    have hall := Passes.of_leads ['?'] hlines (Nat.le_refl _) (by simpa using hquestion)
    simpa [further] using hall

end

/-! ## Documents -/

theorem all_isPrintable_tagText (htag : ∀ t ∈ tag, t.IsPlain) : (tagText tag).all isPrintable := by
  cases tag with
  | none => rfl
  | some tag =>
    obtain ⟨name, htext, -, hall, -⟩ := (htag tag rfl).tagText
    have hname : name.all isPrintable := List.all_eq_true.2 fun c hc =>
      Scalar.isPrintable_of_isGraphic (isGraphic_of_isNameChar (List.all_eq_true.1 hall c hc))
    rw [htext, List.all_cons, List.all_cons, hname]
    rfl

theorem all_isPrintable_spaces (column : Nat) : (spaces column).all isPrintable :=
  List.all_eq_true.2 fun c hc => by
    rw [List.eq_of_mem_replicate hc]
    rfl

theorem all_isPrintable_gap (ofKey : Bool) (tag : Option Tag) (start : Nat) :
    (gap ofKey tag start).all isPrintable := by
  rw [gap]
  split
  · rw [List.all_cons, all_isPrintable_spaces]
    rfl
  · rfl

mutual

/-- Written nodes have printable characters only. -/
theorem all_isPrintable_print (n : Node) (h : n.IsWritten) (column : Nat) (ofKey : Bool) :
    (n.print column ofKey).all isPrintable := by
  cases n with
  | scalar tag style text =>
    rw [print, List.all_append, List.all_cons, all_isPrintable_tagText h.1, Style.all_isPrintable_write h.2]
    rfl
  | sequence tag items =>
    cases items with
    | nil =>
      rw [print, List.all_append, all_isPrintable_tagText h.1]
      rfl
    | cons item items =>
      rw [print_sequence_cons, List.all_append, List.all_append, all_isPrintable_tagText h.1, all_isPrintable_gap,
        all_isPrintable_printItems (item :: items) h.2]
      rfl
  | mapping tag members =>
    cases members with
    | nil =>
      rw [print, List.all_append, all_isPrintable_tagText h.1]
      rfl
    | cons member members =>
      rw [print_mapping_cons, List.all_append, List.all_append, all_isPrintable_tagText h.1, all_isPrintable_gap,
        all_isPrintable_printMembers (member :: members) h.2]
      rfl
  | reference number => exact h.elim

theorem all_isPrintable_printItems (items : List Node) (h : AreWritten items) (column : Nat) :
    (printItems column items).all isPrintable := by
  cases items with
  | nil => rfl
  | cons item items =>
    rw [printItems_cons, further]
    split
    · simp [all_isPrintable_print item h.1, show isPrintable '-' = true from rfl]
    · simp only [List.all_cons, List.all_append, all_isPrintable_print item h.1, all_isPrintable_spaces,
        all_isPrintable_printItems items h.2]
      rfl

theorem all_isPrintable_printMembers (members : List Member) (h : MembersWritten members) (column : Nat) :
    (printMembers column members).all isPrintable := by
  cases members with
  | nil => rfl
  | cons member members =>
    rw [printMembers_cons, further]
    split
    · rw [List.append_nil]
      exact all_isPrintable_printMember member h.1 column
    · simp only [List.all_append, all_isPrintable_printMember member h.1, all_isPrintable_spaces,
        all_isPrintable_printMembers members h.2]
      rfl

theorem all_isPrintable_printMember (member : Member) (h : MemberWritten member) (column : Nat) :
    (printMember column member).all isPrintable := by
  obtain ⟨key, value⟩ := member
  rw [printMember]
  split
  next written hwritten =>
    obtain ⟨style, text, rfl, hholds⟩ := h.1
    rw [simpleKey?] at hwritten
    split at hwritten
    next =>
      obtain rfl := Option.some.inj hwritten
      have hwrite := List.all_eq_true.1 (Style.all_isPrintable_write hholds 0)
      rw [List.all_append, List.all_cons, all_isPrintable_print value h.2,
        List.all_eq_true.2 fun c hc => hwrite c (List.dropLast_subset _ hc)]
      rfl
    next => cases hwritten
  next =>
    simp only [List.all_append, List.all_cons, all_isPrintable_print key h.1.isWritten, all_isPrintable_spaces,
      all_isPrintable_print value h.2]
    rfl

end

/-- **A written document is scanned to the tokens of its node.** -/
theorem scan?_render {members : List Member} (h : MembersWritten members) (hne : members ≠ []) :
    Token.scan? (Node.mapping none members).render = some ((Node.mapping none members).tokens false) := by
  have hrender : (Node.mapping none members).render = String.ofList (printMembers 0 members) := by
    obtain ⟨member, members, rfl⟩ := List.exists_cons_of_ne_nil hne
    rfl
  have htokens : (Node.mapping none members).tokens false =
      .blockMapping :: (membersTokens members ++ [.blockEnd]) := by
    obtain ⟨member, members, rfl⟩ := List.exists_cons_of_ne_nil hne
    rfl
  have hcells := Cell.ofText?_whole (s := String.ofList (printMembers 0 members))
    (by rw [String.toList_ofList]; exact all_isPrintable_printMembers members h 0)
  rw [String.toList_ofList] at hcells
  have hpasses : Passes Place.start (printMembers 0 members) [] (outside [] [] none true)
      ((membersTokens members).reverse ++ [.blockMapping]) [0] :=
    passes_printMembers members h hne rfl (.now [] fun _ h => nomatch h) (Scanner.idle_none _)
      ⟨0, [], rfl, Nat.le_refl 0, fun _ h => nomatch h⟩
  obtain ⟨-, -, key, hidle, steps, hlength, hscan⟩ := hpasses
  rw [List.append_nil] at hlength hscan
  obtain ⟨fuel, hfuel⟩ : ∃ fuel, (Place.start.whole (printMembers 0 members)).length = fuel + 1 + steps := by
    rw [Place.length_whole, List.length_nil] at hlength
    exact ⟨(Place.start.whole (printMembers 0 members)).length - 1 - steps, by omega⟩
  have hfinish : (outside ((membersTokens members).reverse ++ [.blockMapping]) [0] key true).finish? =
      some (.blockMapping :: (membersTokens members ++ [.blockEnd])) := by
    have hunroll : (outside ((membersTokens members).reverse ++ [.blockMapping]) [0] key true).unroll (-1) =
        outside (.blockEnd :: ((membersTokens members).reverse ++ [.blockMapping])) [] key true :=
      Scanner.unroll_cons (by decide)
    rw [Scanner.finish?, hunroll, Scanner.dropKey?_outside hidle]
    simp [outside]
  rw [Token.scan?, hrender, hcells, Option.bind_some, hfuel, htokens]
  exact (hscan (fuel + 1)).trans ((Scanner.scan?_end fuel).trans hfinish)

end Node

end BoundSql.Yaml
