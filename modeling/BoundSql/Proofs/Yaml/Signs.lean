import BoundSql.Proofs.Yaml.Scanner
import BoundSql.Proofs.Yaml.Tag

/-!
# Scanning what stands between scalars

Tags, empty collections, and the signs in front of items, keys and values. A collection begins with its first item or
key (`Scanner.Opens`), and a text in front of a colon is a key although that is known only at the colon
(`Scanner.leads_simpleKey`).
-/

namespace BoundSql.Yaml.Scanner

variable {p : Place} {c : Char} {cs rest : List Char} {column : Nat} {columns columns' : List Nat}
variable {tokens tokens' : List Token} {key : Option KeyStart} {keyAllowed : Bool} {t : Token}

/-! ## Tags -/

/-- Token of a tag with a plain name. -/
def tagTokens : Option Tag → List Token
  | none => []
  | some tag => [.tag ⟨"!", tag.bytes.drop 1⟩]

/-- **A tag in front of a node.** -/
theorem leads_tag {tag : Tag} (h : tag.IsPlain) (hcolumn : column < p.column) (hidle : Idle key (p.line + 1))
    (hrest : isSeparator (rest.headD endChar)) : ∃ key', Idle key' (p.line + 1) ∧
      Leads (outside tokens (column :: columns) key keyAllowed) (p.whole (Node.tagText (some tag) ++ rest))
        (outside ((tagTokens (some tag)).reverse ++ tokens) (column :: columns) key' false)
        ((p.after (Node.tagText (some tag))).whole rest) := by
  obtain ⟨name, htext, hne, hall, hbytes⟩ := h.tagText
  have hstep : p.step ' ' = ⟨p.offset + 1, p.line, p.column + 1⟩ := rfl
  have hcolumn' : column < (p.step ' ').column := Nat.lt_succ_of_lt hcolumn
  obtain ⟨key', hidle', hsave⟩ := saveKey?_inner (p := p.step ' ') hidle hcolumn' tokens columns keyAllowed '!'
  refine ⟨key', hidle', ?_⟩
  rw [htext, List.cons_append, List.cons_append]
  refine (leads_space _).trans (leads_token rfl (fun d hd => ?_) ?_ ?_ fun fuel => rfl)
  · obtain rfl := Option.some.inj hd
    exact hcolumn'.le
  · obtain ⟨htest, htest', htest''⟩ :=
      (noMark_of_ne (p.step ' ') (name ++ rest) (c := '!') (by decide) (by decide) (by decide)).tests
    have hread : WrittenTag.read? (outside tokens (column :: columns) key keyAllowed).inFlow
        (((p.step ' ').step '!').whole (name ++ rest)) = some (⟨"!", name.map Char.toUInt8⟩, _) :=
      WrittenTag.read?_name hall hne hrest
    rw [step?, htest, htest', htest'']
    show keyed? _ _ _ = _
    rw [hread, keyed?, hsave]
    have hsuffix : tag.bytes.drop 1 = name.map Char.toUInt8 := by rw [hbytes]; rfl
    rw [tagTokens, hsuffix]
    rfl
  · simp

theorem not_isBreak_tagText {tag : Option Tag} (h : ∀ t ∈ tag, t.IsPlain) :
    ∀ c ∈ Node.tagText tag, isBreak c = false := by
  cases tag with
  | none => exact fun c hc => nomatch hc
  | some tag =>
    obtain ⟨name, htext, -, hall, -⟩ := (h tag rfl).tagText
    intro c hc
    rw [htext] at hc
    simp only [List.mem_cons] at hc
    obtain rfl | rfl | hc := hc
    · rfl
    · rfl
    · exact Scalar.isBreak_of_isGraphic (isGraphic_of_isNameChar (List.all_eq_true.1 hall c hc))

/-! ## Empty collections -/

/-- Signs around an empty collection, and their tokens. -/
inductive IsEmptyPair : Char → Char → Token → Token → Prop where
  | sequence : IsEmptyPair '[' ']' .flowSequence .flowSequenceEnd
  | mapping : IsEmptyPair '\x7b' '\x7d' .flowMapping .flowMappingEnd

/-- **An empty collection on its line.** -/
theorem leads_empty {first last : Char} {t t' : Token} (hpair : IsEmptyPair first last t t')
    (hcolumn : column < p.column) (hidle : Idle key (p.line + 1)) (tokens : List Token) (columns : List Nat)
    (keyAllowed : Bool) (rest : List Char) : ∃ key', Idle key' (p.line + 1) ∧
      Leads (outside tokens (column :: columns) key keyAllowed) (p.whole (' ' :: first :: last :: '\n' :: rest))
        (outside (t' :: t :: tokens) (column :: columns) key' true)
        ((p.after [' ', first, last, '\n']).whole rest) := by
  have hcolumn' : column < (p.step ' ').column := Nat.lt_succ_of_lt hcolumn
  obtain ⟨key', hidle', hsave⟩ := saveKey?_inner (p := p.step ' ') hidle hcolumn' tokens columns keyAllowed first
  have hclose (fuel : Nat) (q : Place) (more : List Char) : scan? (fuel + 1)
      ⟨t :: tokens, (t :: tokens).length, column :: columns, none, [key'], true⟩ (q.whole (last :: more)) =
        scan? fuel (outside (t' :: t :: tokens) (column :: columns) key' false) ((q.step last).whole more) := by
    have hne : last ≠ '%' ∧ last ≠ '-' ∧ last ≠ '.' := by
      cases hpair <;> decide
    obtain ⟨htest, htest', htest''⟩ := (noMark_of_ne q more hne.1 hne.2.1 hne.2.2).tests
    have hstep : (⟨t :: tokens, (t :: tokens).length, column :: columns, none, [key'], true⟩ : Scanner).step?
        (q.cell last) ((q.step last).whole more) =
          some (outside (t' :: t :: tokens) (column :: columns) key' false, (q.step last).whole more) := by
      rw [step?, htest, htest', htest'']
      cases hpair <;> rfl
    have hend : last ≠ endChar := by
      cases hpair <;> decide
    exact scan?_step (by cases hpair <;> rfl) hend (by cases hpair <;> rfl) hstep fuel
  have hopen : Leads (outside tokens (column :: columns) key keyAllowed)
      ((p.step ' ').whole (first :: last :: '\n' :: rest))
      ⟨t :: tokens, (t :: tokens).length, column :: columns, none, [key'], true⟩
      (((p.step ' ').step first).whole (last :: '\n' :: rest)) := by
    refine leads_token (by cases hpair <;> rfl) (fun d hd => ?_) ?_ (by simp)
      fun fuel => rfl
    · obtain rfl := Option.some.inj hd
      exact hcolumn'.le
    · have hne : first ≠ '%' ∧ first ≠ '-' ∧ first ≠ '.' := by
        cases hpair <;> decide
      obtain ⟨htest, htest', htest''⟩ :=
        (noMark_of_ne (p.step ' ') (last :: '\n' :: rest) hne.1 hne.2.1 hne.2.2).tests
      rw [step?, htest, htest', htest'']
      cases hpair
      all_goals
        show Option.map _ (openFlow? _ _ _) = _
        rw [openFlow?, hsave]
        rfl
  refine ⟨key', hidle', (leads_space _).trans (hopen.trans (Leads.trans ?_ (leads_newline false)))⟩
  refine ⟨1, ?_, fun fuel => hclose fuel _ _⟩
  rw [Place.length_whole, Place.length_whole, List.length_cons, List.length_cons, List.length_cons]
  omega

/-! ## Items and keys -/

/-- Tokens and columns once the collection at a column has begun: it has begun already, or it begins now. -/
inductive Opens (t : Token) (column : Nat) : List Token → List Nat → List Token → List Nat → Prop where
  | already (tokens : List Token) (columns : List Nat) :
      Opens t column tokens (column :: columns) tokens (column :: columns)
  | now (tokens : List Token) {columns : List Nat} (h : ∀ d ∈ columns.head?, d < column) :
      Opens t column tokens columns (t :: tokens) (column :: columns)

theorem insertIdx_length (behind tokens : List Token) (t : Token) :
    (behind ++ tokens).insertIdx behind.length t = behind ++ t :: tokens := by
  induction behind with
  | nil => rfl
  | cons b behind ih => rw [List.cons_append, List.length_cons, List.insertIdx_succ_cons, ih, List.cons_append]

namespace Opens

theorem le (h : Opens t column tokens columns tokens' columns') : ∀ d ∈ columns.head?, d ≤ column := by
  cases h with
  | already => exact fun d hd => (Option.some.inj hd).ge
  | now h => exact fun d hd => (h d hd).le

theorem exists_columns (h : Opens t column tokens columns tokens' columns') : ∃ outer, columns' = column :: outer := by
  cases h <;> exact ⟨_, rfl⟩

/-- The collection begins in front of the tokens of its first key. -/
theorem roll (h : Opens t column tokens columns tokens' columns') (key : Option KeyStart) (keyAllowed : Bool)
    (behind : List Token) :
    (outside (behind ++ tokens) columns key keyAllowed).roll column tokens.length t =
      outside (behind ++ tokens') columns' key keyAllowed := by
  cases h with
  | already columns =>
    have hindent : (column : Int) ≤ (outside (behind ++ tokens) (column :: columns) key keyAllowed).indent :=
      Int.le_refl _
    rw [Scanner.roll, decide_eq_true hindent, Bool.or_true, if_pos rfl]
  | now h =>
    have hindent : ¬(column : Int) ≤ (outside (behind ++ tokens) columns key keyAllowed).indent := by
      cases columns with
      | nil =>
        show ¬(column : Int) ≤ -1
        omega
      | cons d ds =>
        have := h d rfl
        show ¬(column : Int) ≤ d
        omega
    rw [Scanner.roll, decide_eq_false hindent, Bool.or_false]
    simp only [outside, inFlow, insert, List.length_append, Nat.add_sub_cancel, insertIdx_length, List.isEmpty_nil,
      Bool.not_true, Bool.false_eq_true, if_false, List.length_cons, Nat.add_assoc]

end Opens

theorem noMark_of_separator (hpercent : c ≠ '%') (hrest : isSeparator (rest.headD endChar)) : NoMark p (c :: rest) := by
  have hhead {mark : Char} (hmark : isSeparator mark = false) : (c :: rest).take 3 ≠ [mark, mark, mark] := by
    intro heq
    cases rest with
    | nil => cases (List.cons.inj heq).2
    | cons d ds =>
      have hd : d = mark := (List.cons.inj (List.cons.inj heq).2).1
      rw [List.headD_cons, hd, hmark] at hrest
      cases hrest
  exact ⟨fun _ h => hpercent (Option.some.inj h), hhead rfl, hhead rfl⟩

/-- **The dash in front of an item.** -/
theorem leads_entry {line : Nat} (h : Opens .blockSequence p.column tokens columns tokens' columns')
    (hidle : Idle key line) (hrest : isSeparator (rest.headD endChar)) :
    Leads (outside tokens columns key true) (p.whole ('-' :: rest))
      (outside (.entry :: tokens') columns' none true) ((p.step '-').whole rest) := by
  refine leads_token rfl h.le ?_ (by simp) fun fuel => rfl
  obtain ⟨htest, htest', htest''⟩ := (noMark_of_separator (p := p) (c := '-') (by decide) hrest).tests
  have hroll := h.roll key true []
  rw [List.nil_append, List.nil_append] at hroll
  rw [step?, htest, htest', htest'', Place.headChar_whole]
  simp only [hrest]
  have hentry : entry? (outside tokens columns key true) (p.cell '-') =
      some (outside (.entry :: tokens') columns' none true) := by
    show Option.bind (dropKey? (Scanner.roll _ p.column tokens.length _)) _ = _
    rw [hroll, dropKey?_outside hidle]
    rfl
  exact congrArg (Option.map fun s => (s, (p.step '-').whole rest)) hentry

/-- **The question mark in front of a key.** -/
theorem leads_key {line : Nat} (h : Opens .blockMapping p.column tokens columns tokens' columns')
    (hidle : Idle key line) (hrest : isSeparator (rest.headD endChar)) :
    Leads (outside tokens columns key true) (p.whole ('?' :: rest))
      (outside (.key :: tokens') columns' none true) ((p.step '?').whole rest) := by
  refine leads_token rfl h.le ?_ (by simp) fun fuel => rfl
  obtain ⟨htest, htest', htest''⟩ := (noMark_of_separator (p := p) (c := '?') (by decide) hrest).tests
  have hroll := h.roll key true []
  rw [List.nil_append, List.nil_append] at hroll
  rw [step?, htest, htest', htest'', Place.headChar_whole]
  simp only [hrest]
  show Option.map _ (key? _ _) = _
  have hkey : (outside tokens columns key true).key? (p.cell '?') =
      some (outside (.key :: tokens') columns' none true) := by
    show Option.bind (dropKey? (Scanner.roll _ p.column tokens.length _)) _ = _
    rw [hroll, dropKey?_outside hidle]
    rfl
  rw [hkey]
  rfl

/-- **The colon on a line of its own.** -/
theorem leads_value (hidle : Idle key p.line) (hrest : isSeparator (rest.headD endChar)) (tokens : List Token)
    (columns : List Nat) :
    Leads (outside tokens (p.column :: columns) key true) (p.whole (':' :: rest))
      (outside (.value :: tokens) (p.column :: columns) key true) ((p.step ':').whole rest) := by
  refine leads_token rfl (fun d hd => (Option.some.inj hd).ge) ?_ (by simp) fun fuel => rfl
  obtain ⟨htest, htest', htest''⟩ := (noMark_of_separator (p := p) (c := ':') (by decide) hrest).tests
  have hroll := (Opens.already tokens columns : Opens .blockMapping p.column _ _ _ _).roll key true []
  rw [List.nil_append] at hroll
  have hvalue : (outside tokens (p.column :: columns) key true).value? (p.cell ':') =
      some (outside (.value :: tokens) (p.column :: columns) key true) := by
    have halone : value?.standalone (p.cell ':') (outside tokens (p.column :: columns) key true) =
        some (outside (.value :: tokens) (p.column :: columns) key true) := by
      have hallowed : (!(outside tokens (p.column :: columns) key true).inFlow &&
          !(outside tokens (p.column :: columns) key true).keyAllowed) = false := rfl
      rw [value?.standalone, hallowed]
      exact (congrArg (fun s : Scanner => some { s.push .value with keyAllowed := !s.inFlow }) hroll).trans rfl
    cases key with
    | none => exact halone
    | some k =>
      obtain ⟨hrequired, hline⟩ := hidle k rfl
      have hends : mayEnd k (p.cell ':') = false := by
        rw [mayEnd, decide_eq_false (show k.cell.line ≠ (p.cell ':').line from Nat.ne_of_lt hline), Bool.false_and]
      show (if mayEnd k (p.cell ':') = true then _ else if k.required = true then _ else _) = _
      rw [hends, hrequired]
      exact halone
  rw [step?, htest, htest', htest'', Place.headChar_whole]
  simp only [hrest]
  show Option.map _ (value? _ _) = _
  rw [hvalue]
  rfl

/-! ## Keys in front of their colon -/

/-- A text of one line is written with a token in front. -/
theorem startsToken_write {style : Style} (h : style.Holds cs) (hline : ∀ c ∈ cs, endsLine c = false) (indent : Nat) :
    ∀ c ∈ (style.write indent cs).head?, startsToken c := by
  intro c hc
  cases style with
  | plain =>
    obtain ⟨d, tail, rfl, hstarts, -⟩ := begins_of_mayBePlain h
    obtain rfl := Option.some.inj hc
    exact hstarts
  | singleQuoted | doubleQuoted =>
    obtain rfl := Option.some.inj hc
    rfl
  | literal => exact absurd (hline '\n' h.2) (by decide)
  | folded => exact h.elim

/-- The text of a key up to its colon. -/
theorem leads_keyText {style : Style} {line : Nat} {written : List Char} (h : style.Holds cs)
    (hwritten : style.write 0 cs = written ++ ['\n']) (hline : ∀ c ∈ cs, endsLine c = false)
    (hcolumns : ∀ d ∈ columns.head?, d ≤ p.column) (hidle : Idle key line) (hrest : isSeparator (rest.headD endChar))
    (tokens : List Token) : ∃ c required, Leads (outside tokens columns key true) (p.whole (written ++ ':' :: rest))
      (outside (.scalar style (String.ofList cs) :: tokens) columns (some ⟨tokens.length, p.cell c, required⟩) false)
      ((p.after written).whole (':' :: rest)) := by
  have hbreak : ∀ c ∈ cs, isBreak c = false := fun c hc => by
    have := hline c hc
    simp only [endsLine, Bool.or_eq_false_iff] at this
    exact this.1.1
  have hquoted (hstyle : style = .singleQuoted ∨ style = .doubleQuoted) :
      ∃ c required, Leads (outside tokens columns key true) (p.whole (written ++ ':' :: rest))
        (outside (.scalar style (String.ofList cs) :: tokens) columns (some ⟨tokens.length, p.cell c, required⟩) false)
        ((p.after written).whole (':' :: rest)) := by
    obtain ⟨quote, body, hquote, hwrite, hread⟩ := exists_quoted hstyle h 0 fun _ => hbreak
    obtain ⟨required, hsave, -⟩ := saveKey?_outside hidle tokens columns (p.cell quote)
    have hwritten' : written = quote :: body := by
      rw [hwritten, ← List.cons_append] at hwrite
      exact List.append_cancel_right hwrite
    have hstarts : startsToken quote := by obtain ⟨rfl, -⟩ | ⟨rfl, -⟩ := hquote <;> rfl
    have hstep : 0 < (p.step quote).column := by
      have hbreak : isBreak quote = false := by obtain ⟨rfl, -⟩ | ⟨rfl, -⟩ := hquote <;> rfl
      rw [Place.step_of_not_isBreak hbreak]
      exact Nat.succ_pos _
    refine ⟨quote, required, ?_⟩
    rw [hwritten', List.cons_append]
    refine leads_token hstarts hcolumns ?_ (by simp) fun fuel => rfl
    rw [step?_quoted hquote, keyed?, hsave]
    refine (congrArg (Option.bind · _) (hread _ (':' :: rest) hstep (by rintro ⟨⟩))).trans ?_
    rfl
  cases style with
  | plain =>
    have hwritten' : written = cs := (List.append_cancel_right hwritten).symm
    obtain ⟨c, tail, rfl, hstarts, -⟩ := begins_of_mayBePlain h
    obtain ⟨required, hsave, -⟩ := saveKey?_outside hidle tokens columns (p.cell c)
    refine ⟨c, required, ?_⟩
    rw [hwritten', List.cons_append]
    refine leads_token hstarts hcolumns ?_ (by simp) fun fuel => rfl
    have hindent : (outside tokens columns (some ⟨tokens.length, p.cell c, required⟩) false).indent + 1 ≤
        (p.column : Int) + 1 := by
      cases columns with
      | nil =>
        show (-1 : Int) + 1 ≤ _
        omega
      | cons d ds =>
        have := hcolumns d rfl
        show (d : Int) + 1 ≤ _
        omega
    have hread := Scalar.plain?_colon (p := p) (Scalar.continues_of_mayBePlain h) hindent hrest
    rw [step?_plain h (.inl rfl), plain?, hsave]
    refine (congrArg (Option.bind · _) hread).trans ?_
    rfl
  | singleQuoted => exact hquoted (.inl rfl)
  | doubleQuoted => exact hquoted (.inr rfl)
  | literal => exact absurd (hbreak '\n' h.2) (by decide)
  | folded => exact h.elim

/-- The colon behind a key puts the tokens of the key where it begins. -/
theorem value?_key {style : Style} {text : String} {required : Bool} {q : Place}
    (hopens : Opens .blockMapping p.column tokens columns tokens' columns')
    (hends : mayEnd ⟨tokens.length, p.cell c, required⟩ (q.cell ':') = true) :
    (outside (.scalar style text :: tokens) columns (some ⟨tokens.length, p.cell c, required⟩) false).value?
        (q.cell ':') =
      some (outside (.value :: .scalar style text :: .key :: tokens') columns' none false) := by
  have hinsert :
      (outside (.scalar style text :: tokens) columns (some ⟨tokens.length, p.cell c, required⟩) false).insert
        tokens.length .key =
        outside ([.scalar style text, .key] ++ tokens) columns (some ⟨tokens.length, p.cell c, required⟩) false := by
    simp [insert, outside]
  show (if mayEnd _ _ = true then some (valueOf _ _) else _) = _
  rw [if_pos hends, valueOf, hinsert]
  exact congrArg (fun s : Scanner => some { s.push .value with key := none, keyAllowed := false })
    (hopens.roll _ false [.scalar style text, .key])

/-- **A key in front of its colon.** -/
theorem leads_simpleKey {style : Style} {text : String} {written : List Char} {line : Nat}
    (hkey : Node.simpleKey? (.scalar none style text) = some written) (h : style.Holds text.toList)
    (hopens : Opens .blockMapping p.column tokens columns tokens' columns') (hidle : Idle key line)
    (hrest : isSeparator (rest.headD endChar)) :
    Leads (outside tokens columns key true) (p.whole (written ++ ':' :: rest))
        (outside (.value :: .scalar style text :: .key :: tokens') columns' none false)
        ((p.after (written ++ [':'])).whole rest) ∧
      ∀ c ∈ written, isBreak c = false := by
  rw [Node.simpleKey?] at hkey
  split at hkey
  next hsimple =>
    simp only [Bool.and_eq_true, decide_eq_true_eq, Bool.not_eq_true', List.any_eq_false, Bool.not_eq_true] at hsimple
    obtain ⟨hsize, hline⟩ := hsimple
    obtain ⟨written', hwritten, hbreak, hcount⟩ := Style.exists_line h hline
    obtain rfl : written' = written := by
      rw [hwritten, List.dropLast_concat] at hkey
      exact Option.some.inj hkey
    refine ⟨?_, hbreak⟩
    obtain ⟨c, required, hleads⟩ := leads_keyText h hwritten hline hopens.le hidle hrest tokens
    rw [String.ofList_toList] at hleads
    have hends : mayEnd ⟨tokens.length, p.cell c, required⟩ ((p.after written').cell ':') = true := by
      rw [Style.utf8ByteSize_eq, Node.simpleKeyLimit] at hsize
      have hoffset : (p.after written').offset ≤ p.offset + keyLimit := by
        rw [Place.offset_after, keyLimit]
        exact Nat.add_le_add_left (hcount.trans (by omega)) _
      rw [mayEnd, Place.line_cell, Place.line_cell, Place.line_after_of_not_isBreak hbreak, decide_eq_true rfl,
        Bool.true_and]
      exact decide_eq_true hoffset
    have hplace : p.after (written' ++ [':']) = (p.after written').step ':' := Place.after_append
    rw [hplace]
    refine hleads.trans (leads_token rfl (fun d hd => ?_) ?_ (by simp) fun fuel => rfl)
    · rw [Place.column_after_of_not_isBreak hbreak]
      exact (hopens.le d hd).trans (Nat.le_add_right _ _)
    · obtain ⟨htest, htest', htest''⟩ :=
        (noMark_of_separator (p := p.after written') (c := ':') (by decide) hrest).tests
      rw [step?, htest, htest', htest'', Place.headChar_whole]
      simp only [hrest]
      show Option.map _ (value? _ _) = _
      rw [value?_key hopens hends]
      rfl
  next => cases hkey

end BoundSql.Yaml.Scanner
