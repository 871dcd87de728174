import BoundSql.Proofs.Yaml.Plain
import Mathlib.Data.List.Basic
import Mathlib.Data.List.TakeWhile

/-!
# Blocks of lines are read back

A text that is written as a block is read back with its line ends, up to the token that is indented less
(`Scalar.block?_literal`). The signs in front of the block say how far its lines are indented where the first line
cannot show it, and what becomes of the line ends behind the last line.
-/

namespace BoundSql.Yaml.Scalar

variable {p : Place} {c : Char} {cs rest : List Char} {parent : Int} {indent widest : Nat}

/-! ## Empty lines -/

theorem emptyLines?_cell (breaks : List Char) (cells : List Cell) :
    emptyLines? parent indent widest breaks (p.cell c :: cells) =
      let before := indent = 0 || p.column < indent
      if c = ' ' && before then emptyLines? parent indent widest breaks cells
      else if c = '\t' && before then none
      else if isBreak c then emptyLines? parent indent (max widest p.column) (c :: breaks) cells
      else
        let widest := max widest p.column
        some (if indent = 0 then max widest (max (parent + 1).toNat 1) else indent,
          breaks.reverse, p.cell c :: cells) := by
  rw [emptyLines?]
  rfl

/-- Lines without a character, from the beginning of a line on. -/
theorem emptyLines?_breaks {ends : List Char} (h : ∀ c ∈ ends, isBreak c) (hcolumn : p.column = 0) (parent : Int)
    (indent widest : Nat) (breaks rest : List Char) : emptyLines? parent indent widest breaks (p.whole (ends ++ rest)) =
        emptyLines? parent indent widest (ends.reverse ++ breaks) ((p.after ends).whole rest) ∧
      (p.after ends).column = 0 := by
  induction ends generalizing p breaks with
  | nil => exact ⟨rfl, hcolumn⟩
  | cons c ends ih =>
    have hbreak := h c List.mem_cons_self
    have hspace : c ≠ ' ' := by rintro rfl; cases hbreak
    have htab : c ≠ '\t' := by rintro rfl; cases hbreak
    have hstep : (p.step c).column = 0 := by rw [Place.step_of_isBreak hbreak]
    obtain ⟨hread, hcolumn'⟩ := ih (fun d hd => h d (List.mem_cons_of_mem c hd)) hstep (c :: breaks)
    refine ⟨?_, hcolumn'⟩
    rw [List.cons_append, Place.whole_cons, emptyLines?_cell, hcolumn, hbreak]
    simp only [decide_eq_false hspace, decide_eq_false htab, Bool.false_and, Bool.false_eq_true, if_false, if_true,
      Nat.max_zero, hread, List.reverse_cons, List.append_assoc, List.singleton_append, Place.after_cons]

/-- The indentation of a line, as far as a block is indented. -/
theorem emptyLines?_spaces {k : Nat} (h : indent = 0 ∨ p.column + k ≤ indent) (breaks rest : List Char) :
    emptyLines? parent indent widest breaks (p.whole (List.replicate k ' ' ++ rest)) =
      emptyLines? parent indent widest breaks ((p.after (List.replicate k ' ')).whole rest) := by
  induction k generalizing p with
  | zero => rfl
  | succ k ih =>
    have hstep : (p.step ' ').column = p.column + 1 := rfl
    have hbefore : (decide (indent = 0) || decide (p.column < indent)) = true := by
      rw [Bool.or_eq_true, decide_eq_true_eq, decide_eq_true_eq]
      omega
    rw [List.replicate_succ, List.cons_append, Place.whole_cons, emptyLines?_cell]
    simp only [hbefore, decide_true, Bool.true_and, if_true]
    exact ih (by omega)

/-- The first line with more than blanks. -/
theorem emptyLines?_stop (hbreak : isBreak (cs.headD endChar) = false) (htab : cs.headD endChar ≠ '\t')
    (hspace : cs.headD endChar = ' ' → indent ≠ 0 ∧ indent ≤ p.column) (breaks : List Char) :
    emptyLines? parent indent widest breaks (p.whole cs) =
      some (if indent = 0 then max (max widest p.column) (max (parent + 1).toNat 1) else indent, breaks.reverse,
        p.whole cs) := by
  have hcell : ∃ cells, p.whole cs = p.cell (cs.headD endChar) :: cells := by
    cases cs with
    | nil => exact ⟨[], rfl⟩
    | cons c cs => exact ⟨_, rfl⟩
  obtain ⟨cells, hcell⟩ := hcell
  rw [hcell, emptyLines?_cell, hbreak]
  have hblank : (decide (cs.headD endChar = ' ') && (decide (indent = 0) || decide (p.column < indent))) = false := by
    by_cases h : cs.headD endChar = ' '
    · obtain ⟨hne, hle⟩ := hspace h
      rw [decide_eq_false hne, decide_eq_false (Nat.not_lt.2 hle), Bool.false_or, Bool.and_false]
    · rw [decide_eq_false h, Bool.false_and]
  simp only [hblank, decide_eq_false htab, Bool.false_and, Bool.false_eq_true, if_false]

/-! ## Lines -/

variable {k fuel : Nat} {state : BlockState}

/-- What has been read of a block. -/
def BlockState.text (s : BlockState) : List Char := s.done.reverse ++ s.lineEnd ++ s.empty

theorem reverse_join (h : state.lineEnd.reverse = state.lineEnd) (blank : Bool) :
    (state.join true blank).reverse = state.text := by
  simp [BlockState.join, BlockState.text, h]

/-- One line of a block, with the empty lines behind it. -/
theorem blockLines?_line {words : List Char} {b : Char} (hne : words ≠ []) (hprint : words.all isPrintable)
    (hwords : ∀ c ∈ words, isBreak c = false) (hbreak : isBreak b) (hcolumn : p.column = indent) (more : List Char) :
    blockLines? true parent indent (fuel + 1) state (p.whole (words ++ b :: more)) =
      match emptyLines? parent indent 0 [] (((p.after words).step b).whole more) with
      | some (_, empty, rest) =>
        blockLines? true parent indent fuel ⟨words.reverse ++ state.join true (isBlank (words.headD endChar)),
          [b], empty,
          isBlank (words.headD endChar)⟩ rest
      | none => none := by
  have htake : (p.whole (words ++ b :: more)).takeWhile (fun c => !isBreak c.char && c.char ≠ endChar) =
      p.cells words := by
    refine Place.takeWhile_whole (f := fun c => !isBreak c && c ≠ endChar) (fun c hc => ?_) (by simp [hbreak])
    have hend : c ≠ endChar := ne_of_isPrintable (List.all_eq_true.1 hprint c hc) (by decide)
    simp [hwords c hc, hend]
  have hdrop := p.drop_whole words (b :: more)
  obtain ⟨c, words, rfl⟩ := List.exists_cons_of_ne_nil hne
  have hend : c ≠ endChar := ne_of_isPrintable (List.all_eq_true.1 hprint c List.mem_cons_self) (by decide)
  rw [List.cons_append, Place.whole_cons] at htake hdrop ⊢
  rw [blockLines?, if_neg (by simp [hcolumn, hend])]
  dsimp only
  rw [htake, Place.length_cells, hdrop, Place.map_char_cells, Place.whole_cons]
  simp only [Place.char_cell, hbreak, if_true]
  rfl

/-- Behind the last line stands a token that is indented less. -/
theorem blockLines?_end (hcolumn : p.column ≠ indent) :
    blockLines? true parent indent fuel state (p.whole rest) = some (state, p.whole rest) := by
  cases fuel with
  | zero => rfl
  | succ fuel => cases rest <;> exact if_pos (by simp [hcolumn])

theorem isBreak_replicate_space (k : Nat) : ∀ c ∈ List.replicate k ' ', isBreak c = false := fun c hc => by
  rw [List.eq_of_mem_replicate hc]
  rfl

theorem column_after_spaces (hcolumn : p.column = 0) (k : Nat) : (p.after (List.replicate k ' ')).column = k := by
  rw [Place.column_after_of_not_isBreak (isBreak_replicate_space k), List.length_replicate, hcolumn, Nat.zero_add]

theorem blockLines?_dedent (hcolumn : p.column = 0) (hk : k < indent) :
    blockLines? true parent indent fuel state ((p.after (List.replicate k ' ')).whole rest) =
      some (state, (p.after (List.replicate k ' ')).whole rest) :=
  blockLines?_end (by rw [column_after_spaces hcolumn]; exact hk.ne)

/-- The line end behind a text whose last line has none. -/
def closing (cs : List Char) : List Char := if cs.getLast?.any isBreak then [] else ['\n']

/-- The text of a block without the line ends behind its last line, and these line ends. -/
structure Split (cs words ends : List Char) : Prop where
  eq : cs = words ++ ends
  ends : ∀ c ∈ ends, isBreak c
  words : ∀ c ∈ words.getLast?, isBreak c = false

theorem noEnds : ∀ c ∈ ([] : List Char), isBreak c := fun _ h => nomatch h

/-- The empty lines behind the last line. -/
theorem emptyLines?_end (parent : Int) {ends : List Char} (hends : ∀ c ∈ ends, isBreak c) (hcolumn : p.column = 0)
    (hk : k < indent) (hstart : ∀ c ∈ rest.head?, startsToken c) :
    emptyLines? parent indent 0 [] (p.whole (ends ++ (List.replicate k ' ' ++ rest))) =
      some (indent, ends, ((p.after ends).after (List.replicate k ' ')).whole rest) := by
  obtain ⟨hbreaks, hcolumn'⟩ := emptyLines?_breaks hends hcolumn parent indent 0 []
    (List.replicate k ' ' ++ rest)
  have hhead : isBreak (rest.headD endChar) = false ∧ rest.headD endChar ≠ '\t' ∧ rest.headD endChar ≠ ' ' := by
    cases rest with
    | nil => decide
    | cons c cs =>
      obtain ⟨hprint, hspace, hline, -⟩ := startsToken_iff.1 (hstart c rfl)
      exact ⟨(Style.isBreak_eq_endsLine hprint).trans hline, ne_of_isPrintable hprint (by decide),
        by simpa [Style.isSpace] using hspace⟩
  rw [hbreaks, emptyLines?_spaces (.inr (by omega)), emptyLines?_stop hhead.1 hhead.2.1 fun h => absurd h hhead.2.2,
    if_neg (by omega)]
  simp

/-- The empty lines in front of another line. -/
theorem emptyLines?_line (parent : Int) {ends : List Char} (hends : ∀ c ∈ ends, isBreak c) (hcolumn : p.column = 0)
    (hpos : 0 < indent) (hprint : isPrintable c) (hbreak : isBreak c = false) (rest : List Char) :
    emptyLines? parent indent 0 [] (p.whole (ends ++ (List.replicate indent ' ' ++ c :: rest))) =
      some (indent, ends, ((p.after ends).after (List.replicate indent ' ')).whole (c :: rest)) := by
  obtain ⟨hbreaks, hcolumn'⟩ := emptyLines?_breaks hends hcolumn parent indent 0 []
    (List.replicate indent ' ' ++ c :: rest)
  have htab : c ≠ '\t' := ne_of_isPrintable hprint (by decide)
  have hindent : indent ≤ ((p.after ends).after (List.replicate indent ' ')).column := by
    rw [Place.column_after_of_not_isBreak (isBreak_replicate_space indent), List.length_replicate]
    omega
  have hbreak' : isBreak ((c :: rest).headD endChar) = false := hbreak
  have htab' : (c :: rest).headD endChar ≠ '\t' := htab
  rw [hbreaks, emptyLines?_spaces (.inr (by omega)), emptyLines?_stop hbreak' htab' fun _ => ⟨by omega, hindent⟩,
    if_neg (by omega)]
  simp

theorem isBreak_headD_dropWhile (cs : List Char) (b : Bool) :
    cs.dropWhile (fun c => isBreak c == b) = [] ∨
      isBreak ((cs.dropWhile fun c => isBreak c == b).headD endChar) = !b := by
  induction cs with
  | nil => exact .inl rfl
  | cons c cs ih =>
    rw [List.dropWhile_cons]
    split
    next => exact ih
    next h =>
      right
      cases b <;> simpa using h

/-- A text as its first line, the line ends behind it, and the rest. -/
theorem exists_line (hhead : isBreak (cs.headD endChar) = false) (hne : cs ≠ []) :
    ∃ words ends more, cs = words ++ (ends ++ more) ∧ words ≠ [] ∧ (∀ c ∈ words, isBreak c = false) ∧
      (∀ c ∈ ends, isBreak c) ∧ (ends = [] → more = []) ∧ (more ≠ [] → isBreak (more.headD endChar) = false) := by
  have hrest := isBreak_headD_dropWhile cs false
  have hmore := isBreak_headD_dropWhile (cs.dropWhile fun c => isBreak c == false) true
  refine ⟨cs.takeWhile fun c => isBreak c == false, (cs.dropWhile fun c => isBreak c == false).takeWhile fun c =>
    isBreak c == true, (cs.dropWhile fun c => isBreak c == false).dropWhile fun c => isBreak c == true, ?_, ?_, ?_, ?_,
    ?_, ?_⟩
  · rw [List.takeWhile_append_dropWhile, List.takeWhile_append_dropWhile]
  · obtain ⟨c, cs, rfl⟩ := List.exists_cons_of_ne_nil hne
    rw [List.takeWhile_cons, if_pos (by simpa using hhead)]
    exact List.cons_ne_nil _ _
  · exact fun c hc => by simpa using List.mem_takeWhile_imp hc
  · exact fun c hc => by simpa using List.mem_takeWhile_imp hc
  · intro hnil
    generalize cs.dropWhile (fun c => isBreak c == false) = more at hrest hnil ⊢
    cases more with
    | nil => rfl
    | cons c cs =>
      obtain hrest | hrest := hrest
      · cases hrest
      · rw [List.takeWhile_cons, if_pos (by simpa using hrest)] at hnil
        cases hnil
  · exact fun hne' => hmore.resolve_left hne'

theorem closing_of_isBreak (words : List Char) {ends : List Char} (hends : ∀ c ∈ ends, isBreak c) (hne : ends ≠ []) :
    closing (words ++ ends) = [] := by
  rw [closing, List.getLast?_append, List.getLast?_eq_some_getLast hne]
  exact if_pos (hends _ (List.getLast_mem hne))

theorem closing_of_not_isBreak {words : List Char} (hwords : ∀ c ∈ words, isBreak c = false) :
    closing words = ['\n'] := by
  rw [closing, if_neg]
  rw [Option.any_eq_true]
  rintro ⟨c, hc, hbreak⟩
  rw [hwords c (List.mem_of_getLast? hc)] at hbreak
  cases hbreak

theorem closing_append {words more : List Char} (hne : more ≠ []) : closing (words ++ more) = closing more := by
  rw [closing, closing, List.getLast?_append, List.getLast?_eq_some_getLast hne]
  rfl

theorem Split.of_words {words : List Char} (hwords : ∀ c ∈ words, isBreak c = false) {ends : List Char}
    (hends : ∀ c ∈ ends, isBreak c) : Split (words ++ ends) words ends :=
  ⟨rfl, hends, fun c hc => hwords c (List.mem_of_getLast? hc)⟩

theorem Split.append {words ends : List Char} (h : Split cs words ends) (hne : cs ≠ [])
    (hhead : isBreak (cs.headD endChar) = false) (line : List Char) : Split (line ++ cs) (line ++ words) ends := by
  have hwords : words ≠ [] := by
    rintro rfl
    obtain ⟨c, cs, rfl⟩ := List.exists_cons_of_ne_nil hne
    have := h.ends c (by rw [← List.nil_append ends, ← h.eq]; exact List.mem_cons_self)
    rw [show isBreak c = false from hhead] at this
    cases this
  refine ⟨by rw [h.eq, List.append_assoc], h.ends, fun c hc => h.words c ?_⟩
  rw [List.getLast?_append, List.getLast?_eq_some_getLast hwords] at hc
  rwa [List.getLast?_eq_some_getLast hwords]

theorem length_le_indented (indent : Nat) (atStart : Bool) (cs : List Char) :
    cs.length ≤ (Style.indented indent atStart cs).length := by
  induction cs generalizing atStart with
  | nil => exact Nat.zero_le _
  | cons c cs ih =>
    rw [Style.indented]
    split
    · exact Nat.succ_le_succ (ih true)
    · rw [List.length_append, List.length_cons, List.length_cons]
      have := ih false
      omega

/-- Whether the lines of a text are read from a place on, up to the token that is indented less; the line ends behind
the last line are told apart from the text in front of them. -/
def AreRead (parent : Int) (indent k fuel : Nat) (state : BlockState) (p : Place) (cs rest : List Char) : Prop :=
  ∃ words ends final, Split cs words ends ∧
    blockLines? true parent indent fuel state (p.whole (Style.indented indent false cs ++
      (closing cs ++ (List.replicate k ' ' ++ rest)))) =
        some (final, ((p.after (Style.indented indent false cs ++ closing cs)).after
          (List.replicate k ' ')).whole rest) ∧
    final.done.reverse = state.text ++ words ∧ final.lineEnd ++ final.empty = ends ++ closing cs ∧
    final.lineEnd.length = 1

namespace AreRead

variable {words ends : List Char} {b : Char}

/-- State behind a line and its line ends. -/
def behind (state : BlockState) (words : List Char) (b : Char) (ends : List Char) : BlockState :=
  ⟨words.reverse ++ state.join true (isBlank (words.headD endChar)), [b], ends, isBlank (words.headD endChar)⟩

theorem text_behind (h : state.lineEnd.reverse = state.lineEnd) (words : List Char) (b : Char) (ends : List Char) :
    (behind state words b ends).text = state.text ++ (words ++ b :: ends) := by
  simp [behind, BlockState.text, reverse_join h]

/-- The last line has no line end, and gets one. -/
theorem last_open (hne : words ≠ []) (hprint : words.all isPrintable) (hwords : ∀ c ∈ words, isBreak c = false)
    (hk : k < indent) (hstart : ∀ c ∈ rest.head?, startsToken c) (hcolumn : p.column = indent)
    (hstate : state.lineEnd.reverse = state.lineEnd) :
    AreRead parent indent k (fuel + 1) state p words rest := by
  have hline : ((p.after words).step '\n').column = 0 := rfl
  have hempty := emptyLines?_end parent noEnds hline hk hstart
  rw [List.nil_append, Place.after_nil] at hempty
  have hsplit := Split.of_words hwords noEnds
  rw [List.append_nil] at hsplit
  refine ⟨words, [], behind state words '\n' [], hsplit, ?_, ?_, ?_, rfl⟩
  · rw [closing_of_not_isBreak hwords, Style.indented_of_not_isBreak _ hwords, List.singleton_append,
      blockLines?_line hne hprint hwords rfl hcolumn, hempty]
    dsimp only
    rw [blockLines?_dedent hline hk, Place.after_append]
    rfl
  · simp [behind, reverse_join hstate]
  · rw [closing_of_not_isBreak hwords]
    rfl

/-- The last line has line ends. -/
theorem last_closed (hne : words ≠ []) (hprint : words.all isPrintable) (hwords : ∀ c ∈ words, isBreak c = false)
    (hends : ∀ c ∈ b :: ends, isBreak c) (hk : k < indent) (hstart : ∀ c ∈ rest.head?, startsToken c)
    (hcolumn : p.column = indent) (hstate : state.lineEnd.reverse = state.lineEnd) :
    AreRead parent indent k (fuel + 1) state p (words ++ b :: ends) rest := by
  obtain ⟨hbreak, hends'⟩ := List.forall_mem_cons.1 hends
  have hline : ((p.after words).step b).column = 0 := by rw [Place.step_of_isBreak hbreak]
  have hlast : (((p.after words).step b).after ends).column = 0 :=
    (emptyLines?_breaks hends' hline parent indent 0 [] []).2
  have hclosing := closing_of_isBreak words hends (List.cons_ne_nil b ends)
  have hindented : Style.indented indent false (words ++ b :: ends) = words ++ b :: ends := by
    rw [Style.indented_line indent hwords hbreak, ← List.append_nil ends, Style.indented_breaks indent hends']
    rfl
  refine ⟨words, b :: ends, behind state words b ends, Split.of_words hwords hends, ?_, ?_, ?_, rfl⟩
  · rw [hclosing, hindented, List.nil_append, List.append_assoc, List.cons_append,
      blockLines?_line hne hprint hwords hbreak hcolumn, emptyLines?_end parent hends' hline hk hstart]
    dsimp only
    rw [blockLines?_dedent hlast hk, List.append_nil, Place.after_append]
    rfl
  · simp [behind, reverse_join hstate]
  · rw [hclosing, List.append_nil]
    rfl

/-- Other lines stand behind the first one. -/
theorem cons {more : List Char} (hne : words ≠ []) (hprint : words.all isPrintable)
    (hwords : ∀ c ∈ words, isBreak c = false) (hends : ∀ c ∈ b :: ends, isBreak c) (hpos : 0 < indent)
    (hc : isPrintable c) (hc' : isBreak c = false) (hcolumn : p.column = indent)
    (hstate : state.lineEnd.reverse = state.lineEnd)
    (h : AreRead parent indent k fuel (behind state words b ends)
      ((((p.after words).step b).after ends).after (List.replicate indent ' ')) (c :: more) rest) :
    AreRead parent indent k (fuel + 1) state p (words ++ (b :: ends ++ c :: more)) rest := by
  obtain ⟨hbreak, hends'⟩ := List.forall_mem_cons.1 hends
  have hline : ((p.after words).step b).column = 0 := by rw [Place.step_of_isBreak hbreak]
  have hempty := emptyLines?_line parent hends' hline hpos hc hc' (Style.indented indent false more ++
    (closing (c :: more) ++ (List.replicate k ' ' ++ rest)))
  have hword : Style.indented indent false (c :: more) = c :: Style.indented indent false more := by
    rw [Style.indented, hc']
    rfl
  have hindented : Style.indented indent false (words ++ (b :: ends ++ c :: more)) =
      words ++ b :: (ends ++ (List.replicate indent ' ' ++ c :: Style.indented indent false more)) := by
    rw [List.cons_append, Style.indented_line indent hwords hbreak, Style.indented_breaks indent hends',
      Style.indented_start indent hc', hword]
  have hclosing : closing (words ++ (b :: ends ++ c :: more)) = closing (c :: more) := by
    rw [← List.append_assoc, closing_append (List.cons_ne_nil c more)]
  have hwhole : Style.indented indent false (words ++ (b :: ends ++ c :: more)) ++
      (closing (words ++ (b :: ends ++ c :: more)) ++ (List.replicate k ' ' ++ rest)) =
      words ++ b :: (ends ++ (List.replicate indent ' ' ++ c :: (Style.indented indent false more ++
        (closing (c :: more) ++ (List.replicate k ' ' ++ rest))))) := by
    rw [hindented, hclosing]
    simp
  obtain ⟨words', ends', final, hsplit, hread, hdone, hfinal, hone⟩ := h
  refine ⟨words ++ (b :: ends ++ words'), ends', final, ?_, ?_, ?_, ?_, hone⟩
  · rw [← List.append_assoc, ← List.append_assoc]
    exact hsplit.append (List.cons_ne_nil c more) hc' _
  · rw [hwhole, blockLines?_line hne hprint hwords hbreak hcolumn, hempty, hindented, hclosing]
    rw [hword] at hread
    refine hread.trans ?_
    simp [Place.after_append]
  · rw [hdone, text_behind hstate]
    simp
  · rw [hfinal, hclosing]

end AreRead

/-- **The lines of a block are read** up to the token that is indented less, from the first word on. -/
theorem blockLines?_text (parent : Int) (state : BlockState) (hpos : 0 < indent) (hk : k < indent)
    (hstart : ∀ c ∈ rest.head?, startsToken c) (hprint : cs.all isPrintable) (hne : cs ≠ [])
    (hhead : isBreak (cs.headD endChar) = false) (hcolumn : p.column = indent) (hfuel : cs.length ≤ fuel)
    (hstate : state.lineEnd.reverse = state.lineEnd) : AreRead parent indent k fuel state p cs rest := by
  -- one line of the text is taken off at a time
  induction hn : cs.length using Nat.strongRecOn generalizing cs p fuel state with
  | ind n ih =>
    obtain ⟨words, ends, more, rfl, hwords, hplain, hends, hlast, hnext⟩ := exists_line hhead hne
    have hlength := List.length_pos_iff.2 hwords
    rw [List.length_append] at hfuel hn
    obtain ⟨fuel, rfl⟩ : ∃ f, fuel = f + 1 := ⟨fuel - 1, by omega⟩
    rw [List.all_append, List.all_append, Bool.and_eq_true, Bool.and_eq_true] at hprint
    cases ends with
    | nil =>
      obtain rfl := hlast rfl
      rw [List.append_nil, List.append_nil]
      exact .last_open hwords hprint.1 hplain hk hstart hcolumn hstate
    | cons b ends =>
      by_cases hmore : more = []
      · rw [hmore, List.append_nil]
        exact .last_closed hwords hprint.1 hplain hends hk hstart hcolumn hstate
      · have hhead' := hnext hmore
        obtain ⟨c, more, rfl⟩ := List.exists_cons_of_ne_nil hmore
        have hc : isPrintable c := List.all_eq_true.1 hprint.2.2 c List.mem_cons_self
        have hline : (((p.after words).step b).after ends).column = 0 := by
          refine (emptyLines?_breaks (fun d hd => hends d (List.mem_cons_of_mem b hd)) ?_ parent indent 0 [] []).2
          rw [Place.step_of_isBreak (hends b List.mem_cons_self)]
        rw [List.length_append, List.length_cons, List.length_cons] at hfuel hn
        exact .cons hwords hprint.1 hplain hends hpos hc hhead' hcolumn hstate
          (@ih (more.length + 1) (by omega) _ (c :: more) fuel (AreRead.behind state words b ends) hprint.2.2 hmore
            hhead' (column_after_spaces hline indent) (by rw [List.length_cons]; omega) rfl rfl)

/-! ## Signs -/

/-- What becomes of the line ends behind the last line of a text. -/
def chompingOf (cs : List Char) : Chomping :=
  match cs.reverse with
  | [] => .strip
  | [c] => if isBreak c then .keep else .strip
  | c :: d :: _ => if !isBreak c then .strip else if isBreak d then .keep else .clip

/-- Sign of a chomping. -/
def signOf : Chomping → List Char
  | .strip => ['-']
  | .clip => []
  | .keep => ['+']

/-- Whether the first line of a text does not show how far it is indented. -/
def hidesIndentation (cs : List Char) : Bool := cs.head?.any fun c => Style.isSpace c || isBreak c

theorem blockSigns_eq (cs : List Char) : Style.blockSigns cs =
    '|' :: ((if hidesIndentation cs then ['2'] else []) ++ signOf (chompingOf cs)) := by
  have hsign : signOf (chompingOf cs) =
      match cs.reverse with
      | [] => ['-']
      | [c] => if isBreak c then ['+'] else ['-']
      | c :: d :: _ => if !isBreak c then ['-'] else if isBreak d then ['+'] else [] := by
    rw [chompingOf]
    split
    · rfl
    · split <;> rfl
    · split
      · rfl
      · split <;> rfl
  rw [hsign]
  rfl

theorem blockHeader?_signs (hidden : Bool) (chomping : Chomping) (more : List Char) :
    blockHeader? (p.whole ((if hidden then ['2'] else []) ++ signOf chomping ++ '\n' :: more)) =
      some (chomping, if hidden then some 2 else none,
        (p.after ((if hidden then ['2'] else []) ++ signOf chomping)).whole ('\n' :: more)) := by
  cases hidden <;> cases chomping <;> rfl

theorem restOfLine?_newline (more : List Char) :
    restOfLine? (p.whole ('\n' :: more)) = some ((p.step '\n').whole more) := rfl

theorem chompingOf_split {words ends : List Char} (h : Split cs words ends) :
    chompingOf cs = if ends = [] then .strip else if ends.length = 1 ∧ words ≠ [] then .clip else .keep := by
  rw [h.eq, chompingOf]
  obtain rfl | ⟨ends, b, rfl⟩ := ends.eq_nil_or_concat'
  · rw [List.append_nil, if_pos rfl]
    obtain rfl | ⟨words, c, rfl⟩ := words.eq_nil_or_concat'
    · rfl
    · have hc : isBreak c = false := h.words c (by simp)
      rw [List.reverse_append, List.reverse_singleton, List.singleton_append]
      cases words.reverse <;> simp [hc]
  · have hb : isBreak b := h.ends b (by simp)
    rw [if_neg (by simp), ← List.append_assoc, List.reverse_append, List.reverse_singleton, List.singleton_append,
      List.reverse_append]
    obtain rfl | ⟨ends, d, rfl⟩ := ends.eq_nil_or_concat'
    · obtain rfl | ⟨words, c, rfl⟩ := words.eq_nil_or_concat'
      · simp [hb]
      · have hc : isBreak c = false := h.words c (by simp)
        simp [hb, hc]
    · have hd : isBreak d := h.ends d (by simp)
      simp [hb, hd]

/-! ## Blocks -/

theorem Split.of_ends {ends : List Char} (hends : ∀ c ∈ ends, isBreak c) : Split ends [] ends :=
  ⟨rfl, hends, fun _ h => nomatch h⟩

/-- What is kept of the line ends behind the last line. -/
def tailOf (chomping : Chomping) (s : BlockState) : List Char :=
  match chomping with
  | .strip => []
  | .clip => s.lineEnd
  | .keep => s.lineEnd ++ s.empty

theorem tailOf_split {words ends : List Char} (h : Split cs words ends) (final : BlockState)
    (hends : final.lineEnd ++ final.empty = ends ++ closing cs) (hone : words ≠ [] → final.lineEnd.length = 1) :
    words ++ tailOf (chompingOf cs) final = cs := by
  rw [chompingOf_split h]
  by_cases hnil : ends = []
  · rw [if_pos hnil, h.eq, hnil]
    rfl
  · have hclosing : closing cs = [] := h.eq ▸ closing_of_isBreak words h.ends hnil
    rw [hclosing, List.append_nil] at hends
    rw [if_neg hnil]
    conv_rhs => rw [h.eq]
    split
    next hclip =>
      have hlength := congrArg List.length hends
      rw [List.length_append, hone hclip.2, hclip.1] at hlength
      have hempty : final.empty = [] := List.eq_nil_of_length_eq_zero (by omega)
      rw [hempty, List.append_nil] at hends
      exact congrArg (words ++ ·) hends
    next => exact congrArg (words ++ ·) hends

theorem block?_eq (parent : Int) (cells : List Cell) : block? true parent cells = do
    let (chomping, offset, rest) ← blockHeader? cells
    let rest ← restOfLine? rest
    let known := match offset with
      | some n => if 0 ≤ parent then parent.toNat + n else n
      | none => 0
    let (indent, empty, rest) ← emptyLines? parent known 0 [] rest
    let (s, rest) ← blockLines? true parent indent rest.length ⟨[], [], empty, false⟩ rest
    return (s.done.reverse ++ tailOf chomping s, rest) := rfl

/-- The empty lines in front of the first line, and how far the block is indented. -/
theorem emptyLines?_first {column : Nat} {ends more : List Char} (hends : ∀ c ∈ ends, isBreak c)
    (hprint : isPrintable c) (hbreak : isBreak c = false) (hcolumn : p.column = 0) :
    emptyLines? column (if hidesIndentation (ends ++ c :: more) then column + 2 else 0) 0 []
        (p.whole (ends ++ (List.replicate (column + 2) ' ' ++ c :: rest))) =
      some (column + 2, ends, ((p.after ends).after (List.replicate (column + 2) ' ')).whole (c :: rest)) := by
  split
  next => exact emptyLines?_line column hends hcolumn (Nat.succ_pos _) hprint hbreak rest
  next hshown =>
    have htab : c ≠ '\t' := ne_of_isPrintable hprint (by decide)
    cases ends with
    | cons b ends => simp [hidesIndentation, hends b List.mem_cons_self] at hshown
    | nil =>
      have hspace : c ≠ ' ' := by
        rintro rfl
        exact hshown rfl
      rw [List.nil_append, emptyLines?_spaces (.inl rfl),
        emptyLines?_stop (show isBreak ((c :: rest).headD endChar) = false from hbreak) htab fun h => absurd h hspace,
        Place.column_after_of_not_isBreak (isBreak_replicate_space _), List.length_replicate, hcolumn, if_pos rfl]
      have hindent : max (max 0 (0 + (column + 2))) (max ((column : Int) + 1).toNat 1) = column + 2 := by omega
      rw [hindent]
      rfl

/-- A text as the line ends in front of its first line, and the rest. -/
theorem exists_ends (cs : List Char) : ∃ ends more, cs = ends ++ more ∧ (∀ c ∈ ends, isBreak c) ∧
    (more ≠ [] → isBreak (more.headD endChar) = false) :=
  ⟨cs.takeWhile fun c => isBreak c == true, cs.dropWhile fun c => isBreak c == true,
    List.takeWhile_append_dropWhile.symm, fun c hc => by simpa using List.mem_takeWhile_imp hc,
    (isBreak_headD_dropWhile cs true).resolve_left⟩

/-- Lines of a block behind its signs, whose first line shows how far it is indented or hides it. -/
def body? (parent : Int) (known : Nat) (chomping : Chomping) (cells : List Cell) : Option (List Char × List Cell) := do
  let (indent, empty, rest) ← emptyLines? parent known 0 [] cells
  let (s, rest) ← blockLines? true parent indent rest.length ⟨[], [], empty, false⟩ rest
  return (s.done.reverse ++ tailOf chomping s, rest)

theorem block?_signs (column : Nat) (hidden : Bool) (chomping : Chomping) (more : List Char) :
    block? true column (p.whole ((if hidden then ['2'] else []) ++ signOf chomping ++ '\n' :: more)) =
      body? column (if hidden then column + 2 else 0) chomping
        ((p.after ((if hidden then ['2'] else []) ++ signOf chomping ++ ['\n'])).whole more) := by
  have hknown : (match if hidden then some 2 else none with
      | some n => if (0 : Int) ≤ column then (column : Int).toNat + n else n
      | none => 0) = if hidden then column + 2 else 0 := by
    cases hidden <;> simp
  have hline : p.after ((if hidden then ['2'] else []) ++ signOf chomping ++ ['\n']) =
      (p.after ((if hidden then ['2'] else []) ++ signOf chomping)).step '\n' := Place.after_append
  rw [block?_eq, blockHeader?_signs, Option.bind_eq_bind, Option.bind_some]
  dsimp only
  rw [restOfLine?_newline, Option.bind_eq_bind, Option.bind_some, hknown, hline, body?]

variable {column : Nat} {ends : List Char}

/-- A text without a line in it. -/
theorem body?_ends (hends : ∀ c ∈ ends, isBreak c) (hne : ends ≠ []) (hk : k ≤ column)
    (hstart : ∀ c ∈ rest.head?, startsToken c) (hcolumn : p.column = 0) :
    body? column (if hidesIndentation ends then column + 2 else 0) (chompingOf ends)
        (p.whole (Style.indented (column + 2) true ends ++ closing ends ++ (List.replicate k ' ' ++ rest))) =
      some (ends, ((p.after (Style.indented (column + 2) true ends ++ closing ends)).after
        (List.replicate k ' ')).whole rest) := by
  have hhidden : hidesIndentation ends := by
    obtain ⟨b, ends, rfl⟩ := List.exists_cons_of_ne_nil hne
    simp [hidesIndentation, hends b List.mem_cons_self]
  have hclosing : closing ends = [] := closing_of_isBreak [] hends hne
  have hindented : Style.indented (column + 2) true ends = ends := by
    rw [← List.append_nil ends, Style.indented_breaks _ hends]
    rfl
  have hlast : (p.after ends).column = 0 := (emptyLines?_breaks hends hcolumn column 0 0 [] []).2
  have htext := tailOf_split (Split.of_ends hends) ⟨[], [], ends, false⟩ (by rw [hclosing, List.append_nil]; rfl)
    (fun h => absurd rfl h)
  rw [body?, hhidden, if_pos rfl, hclosing, hindented, List.append_nil,
    emptyLines?_end column hends hcolumn (by omega) hstart, Option.bind_eq_bind, Option.bind_some]
  dsimp only
  rw [blockLines?_dedent hlast (by omega)]
  exact congrArg (fun text => some (text, _)) htext

/-- A text with a line in it. -/
theorem body?_lines {more : List Char} (hends : ∀ c ∈ ends, isBreak c) (hbreak : isBreak c = false)
    (hprint : (c :: more).all isPrintable) (hk : k ≤ column) (hstart : ∀ c ∈ rest.head?, startsToken c)
    (hcolumn : p.column = 0) :
    body? column (if hidesIndentation (ends ++ c :: more) then column + 2 else 0) (chompingOf (ends ++ c :: more))
        (p.whole (Style.indented (column + 2) true (ends ++ c :: more) ++ closing (ends ++ c :: more) ++
          (List.replicate k ' ' ++ rest))) =
      some (ends ++ c :: more, ((p.after (Style.indented (column + 2) true (ends ++ c :: more) ++
        closing (ends ++ c :: more))).after (List.replicate k ' ')).whole rest) := by
  have hc : isPrintable c := List.all_eq_true.1 hprint c List.mem_cons_self
  have hword : Style.indented (column + 2) false (c :: more) = c :: Style.indented (column + 2) false more := by
    rw [Style.indented, hbreak]
    rfl
  have hindented : Style.indented (column + 2) true (ends ++ c :: more) =
      ends ++ (List.replicate (column + 2) ' ' ++ c :: Style.indented (column + 2) false more) := by
    rw [Style.indented_breaks _ hends, Style.indented_start _ hbreak, hword]
  have hclosing : closing (ends ++ c :: more) = closing (c :: more) := closing_append (List.cons_ne_nil c more)
  have hfirst : ((p.after ends).after (List.replicate (column + 2) ' ')).column = column + 2 :=
    column_after_spaces (emptyLines?_breaks hends hcolumn column 0 0 [] []).2 _
  have hfuel : (c :: more).length ≤ (c :: (Style.indented (column + 2) false more ++ (closing (c :: more) ++
      (List.replicate k ' ' ++ rest)))).length + 1 := by
    have := length_le_indented (column + 2) false more
    rw [List.length_cons, List.length_cons, List.length_append]
    omega
  obtain ⟨words, ends', final, hsplit, hlines, hdone, hfinal, hone⟩ := blockLines?_text column ⟨[], [], ends, false⟩
    (Nat.succ_pos _) (show k < column + 2 by omega) hstart hprint (List.cons_ne_nil c more) hbreak hfirst hfuel rfl
  have hdone' : final.done.reverse = ends ++ words := hdone
  have htext := tailOf_split (hsplit.append (List.cons_ne_nil c more) hbreak ends) final
    (by rw [hclosing]; exact hfinal) (fun _ => hone)
  rw [hword] at hlines
  have hwhole : ends ++ (List.replicate (column + 2) ' ' ++ c :: Style.indented (column + 2) false more) ++
      closing (c :: more) ++ (List.replicate k ' ' ++ rest) = ends ++ (List.replicate (column + 2) ' ' ++
        c :: (Style.indented (column + 2) false more ++ (closing (c :: more) ++ (List.replicate k ' ' ++ rest)))) := by
    simp
  rw [hindented, hclosing, body?, hwhole, emptyLines?_first hends hc hbreak hcolumn, Option.bind_eq_bind,
    Option.bind_some]
  dsimp only
  have hplace : ((p.after ends).after (List.replicate (column + 2) ' ')).after
      (c :: Style.indented (column + 2) false more ++ closing (c :: more)) =
        p.after (ends ++ (List.replicate (column + 2) ' ' ++ c :: Style.indented (column + 2) false more) ++
          closing (c :: more)) := by
    rw [← Place.after_append, ← Place.after_append]
    simp
  rw [Place.length_whole, ← List.cons_append]
  refine (congrArg (Option.bind · _) hlines).trans ?_
  rw [Option.bind_some, hplace]
  exact congrArg (fun text => some (text, _)) (hdone' ▸ htext)

/-- **A text that is written as a block is read back.** -/
theorem block?_literal {body : List Char} (hprint : cs.all isPrintable) (hne : cs ≠ []) (hk : k ≤ column)
    (hstart : ∀ c ∈ rest.head?, startsToken c) (hbody : Style.blockText (column + 2) cs = '|' :: body) :
    block? true column (p.whole (body ++ (List.replicate k ' ' ++ rest))) =
      some (cs, ((p.after body).after (List.replicate k ' ')).whole rest) := by
  have hbody' : body = (if hidesIndentation cs then ['2'] else []) ++ signOf (chompingOf cs) ++
      '\n' :: (Style.indented (column + 2) true cs ++ closing cs) := by
    rw [Style.blockText, blockSigns_eq] at hbody
    simpa [closing] using (List.cons.inj hbody).2.symm
  have hafter : p.after body = (p.after ((if hidesIndentation cs then ['2'] else []) ++ signOf (chompingOf cs) ++
      ['\n'])).after (Style.indented (column + 2) true cs ++ closing cs) := by
    rw [hbody', ← Place.after_append]
    simp
  rw [hafter, hbody', List.append_assoc, List.cons_append, block?_signs]
  have hcolumn : (p.after ((if hidesIndentation cs then ['2'] else []) ++ signOf (chompingOf cs) ++
      ['\n'])).column = 0 := by
    rw [Place.after_append]
    rfl
  obtain ⟨ends, more, rfl, hends, hmore⟩ := exists_ends cs
  cases more with
  | nil =>
    rw [List.append_nil] at hne hcolumn ⊢
    exact body?_ends hends hne hk hstart hcolumn
  | cons c more =>
    rw [List.all_append, Bool.and_eq_true] at hprint
    exact body?_lines hends (hmore (List.cons_ne_nil c more)) hprint.2 hk hstart hcolumn

end BoundSql.Yaml.Scalar
