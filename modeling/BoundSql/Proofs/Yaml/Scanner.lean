import BoundSql.Proofs.Yaml.Style

/-!
# Scanning one token

What is scanned goes from state to state while the cells in front of it become fewer (`Scanner.Leads`). Blanks and line
ends between tokens are passed over, and a token that is indented less ends the innermost collection
(`Scanner.leads_dedent`). From then on there is one lemma for each token that a written document has.
-/

namespace BoundSql.Yaml.Scanner

variable {p : Place} {c : Char} {cs rest : List Char} {column : Nat} {columns columns' : List Nat}
variable {tokens tokens' : List Token} {key : Option KeyStart} {keyAllowed : Bool} {t : Token}

/-! ## States -/

/-- A text part way through, outside of brackets. -/
def outside (tokens : List Token) (columns : List Nat) (key : Option KeyStart) (keyAllowed : Bool) : Scanner :=
  ⟨tokens, tokens.length, columns, key, [], keyAllowed⟩

/-- Whether scanning goes from one state to another in no more steps than it takes cells. -/
def Leads (s : Scanner) (cells : List Cell) (s' : Scanner) (cells' : List Cell) : Prop :=
  ∃ steps, steps + cells'.length ≤ cells.length ∧ ∀ fuel, scan? (fuel + steps) s cells = scan? fuel s' cells'

namespace Leads

variable {s s' s'' : Scanner} {cells cells' cells'' : List Cell}

theorem trans (h : Leads s cells s' cells') (h' : Leads s' cells' s'' cells'') : Leads s cells s'' cells'' := by
  obtain ⟨steps, hlength, hscan⟩ := h
  obtain ⟨steps', hlength', hscan'⟩ := h'
  refine ⟨steps' + steps, by omega, fun fuel => ?_⟩
  rw [← Nat.add_assoc, hscan, hscan']

theorem of_eq (h : ∀ fuel, scan? fuel s cells = scan? fuel s' cells') (hlength : cells'.length ≤ cells.length) :
    Leads s cells s' cells' := ⟨0, by omega, h⟩

end Leads

/-! ## Between tokens -/

theorem scan?_space (fuel : Nat) (s : Scanner) :
    scan? fuel s (p.whole (' ' :: cs)) = scan? fuel s ((p.step ' ').whole cs) := by
  cases fuel <;> rfl

theorem scan?_spaces (fuel : Nat) (s : Scanner) (k : Nat) : scan? fuel s (p.whole (List.replicate k ' ' ++ cs)) =
    scan? fuel s ((p.after (List.replicate k ' ')).whole cs) := by
  induction k generalizing p with
  | zero => rfl
  | succ k ih => rw [List.replicate_succ, List.cons_append, scan?_space, ih]; rfl

theorem leads_spaces (s : Scanner) (k : Nat) :
    Leads s (p.whole (List.replicate k ' ' ++ cs)) s ((p.after (List.replicate k ' ')).whole cs) :=
  .of_eq (fun fuel => scan?_spaces fuel s k) (by simp)

theorem leads_space (s : Scanner) : Leads s (p.whole (' ' :: cs)) s ((p.step ' ').whole cs) := leads_spaces s 1

theorem finish?_outside (tokens : List Token) (columns : List Nat) (key : Option KeyStart) (keyAllowed : Bool) :
    (outside tokens columns key keyAllowed).finish? = (outside tokens columns key true).finish? := by
  cases keyAllowed with
  | true => rfl
  | false =>
    simp only [finish?, outside, unroll, inFlow, dropKey?, List.isEmpty_nil, Bool.not_true, Bool.false_eq_true,
      if_false]
    split <;> rfl

theorem scan?_newline (fuel : Nat) : scan? fuel (outside tokens columns key keyAllowed) (p.whole ('\n' :: cs)) =
    scan? fuel (outside tokens columns key true) ((p.step '\n').whole cs) := by
  cases fuel with
  | zero => rfl
  | succ fuel =>
    have hskip : skip false false keyAllowed (p.whole ('\n' :: cs)) =
        skip false false true ((p.step '\n').whole cs) := by
      show skip false false (keyAllowed || true) _ = _
      rw [Bool.or_true]
    have hfinish := finish?_outside tokens columns key keyAllowed
    rw [outside, outside] at hfinish
    rw [scan?, scan?, outside, outside]
    simp only [inFlow, List.isEmpty_nil, Bool.not_true, hskip, hfinish]

theorem leads_newline (keyAllowed : Bool) : Leads (outside tokens columns key keyAllowed) (p.whole ('\n' :: cs))
    (outside tokens columns key true) ((p.step '\n').whole cs) :=
  .of_eq scan?_newline (by simp)

theorem skip_token (hc : startsToken c) (cells : List Cell) :
    skip false false keyAllowed (p.cell c :: cells) = (keyAllowed, p.cell c :: cells) := by
  obtain ⟨hprint, hspace, hline, hcomment⟩ := Scalar.startsToken_iff.1 hc
  have hbreak : isBreak c = false := (Style.isBreak_eq_endsLine hprint).trans hline
  have hspace' : c ≠ ' ' := by simpa [Style.isSpace] using hspace
  have htab : c ≠ '\t' := ne_of_isPrintable hprint (by decide)
  have hmark : c ≠ '\ufeff' := ne_of_isPrintable hprint (by decide)
  simp [skip, hbreak, hcomment, hspace', htab, hmark]

theorem scan?_token (hc : startsToken c) (fuel : Nat) :
    scan? (fuel + 1) (outside tokens columns key keyAllowed) (p.whole (c :: cs)) =
      match ((outside tokens columns key keyAllowed).unroll p.column).step? (p.cell c) ((p.step c).whole cs) with
      | some (s, rest) => scan? fuel s rest
      | none => none := by
  have hend : c ≠ endChar := ne_of_isPrintable (Scalar.startsToken_iff.1 hc).1 (by decide)
  rw [Place.whole_cons, scan?]
  simp only [outside, inFlow, List.isEmpty_nil, Bool.not_true, skip_token hc, Place.char_cell, if_neg hend]
  rfl

/-- One step of the scanner, from where there is nothing to skip and no collection to end. -/
theorem scan?_step {s s' : Scanner} {cell : Cell} {cells rest : List Cell}
    (hskip : skip s.inFlow false s.keyAllowed (cell :: cells) = (s.keyAllowed, cell :: cells))
    (hend : cell.char ≠ endChar) (hunroll : s.unroll cell.column = s) (h : s.step? cell cells = some (s', rest))
    (fuel : Nat) : scan? (fuel + 1) s (cell :: cells) = scan? fuel s' rest := by
  rw [scan?, hskip]
  simp only [if_neg hend, hunroll, h]

theorem scan?_end (fuel : Nat) : scan? (fuel + 1) (outside tokens columns key keyAllowed) (p.whole []) =
    (outside tokens columns key keyAllowed).finish? := rfl

/-- A collection that is not indented further goes on. -/
theorem unroll_outside (h : ∀ d ∈ columns.head?, d ≤ column) :
    (outside tokens columns key keyAllowed).unroll column = outside tokens columns key keyAllowed := by
  have hnone : columns.takeWhile (fun (d : Nat) => decide ((column : Int) < d)) = [] := by
    cases columns with
    | nil => rfl
    | cons d ds =>
      have hd : ¬(column : Int) < d := by
        have := h d rfl
        omega
      rw [List.takeWhile_cons, decide_eq_false hd]
      rfl
  simp only [unroll, outside, inFlow, hnone]
  rfl

/-- A collection that is indented further ends. -/
theorem unroll_cons {indent : Int} (h : indent < column) :
    (outside tokens (column :: columns) key keyAllowed).unroll indent =
    (outside (.blockEnd :: tokens) columns key keyAllowed).unroll indent := by
  have hone : (column :: columns).takeWhile (fun (d : Nat) => decide (indent < d)) =
      column :: columns.takeWhile (fun (d : Nat) => decide (indent < d)) := by
    rw [List.takeWhile_cons, decide_eq_true h]
    rfl
  simp only [unroll, outside, inFlow, hone, List.isEmpty_nil, Bool.not_true, Bool.false_eq_true, if_false,
    List.length_cons, List.drop_succ_cons, List.replicate_succ', List.append_assoc, List.singleton_append,
    Nat.add_assoc,
    Nat.add_comm 1]

/-- **A line that is indented less ends the innermost collection.** -/
theorem leads_dedent {indent : Nat} (h : Dedents column rest) (hindent : column < indent) (hcolumn : p.column = 0) :
    Leads (outside tokens (indent :: columns) key keyAllowed) (p.whole rest)
      (outside (.blockEnd :: tokens) columns key keyAllowed) (p.whole rest) := by
  obtain ⟨k, tail, rfl, hk, hstart⟩ := h
  refine .of_eq (fun fuel => ?_) (Nat.le_refl _)
  rw [scan?_spaces, scan?_spaces]
  have hplace : (p.after (List.replicate k ' ')).column = k := by
    rw [Place.column_after_of_not_isBreak (Scalar.isBreak_replicate_space k), List.length_replicate, hcolumn,
      Nat.zero_add]
  cases fuel with
  | zero => rfl
  | succ fuel =>
    cases tail with
    | nil => rw [scan?_end, scan?_end, finish?, finish?, unroll_cons (by omega)]
    | cons c cs => rw [scan?_token (hstart c rfl), scan?_token (hstart c rfl), unroll_cons (by omega)]

/-- One token. -/
theorem leads_token {s s' : Scanner} {cells cells' : List Cell} (hc : startsToken c)
    (hindent : ∀ d ∈ columns.head?, d ≤ p.column)
    (hstep : (outside tokens columns key keyAllowed).step? (p.cell c) ((p.step c).whole cs) = some (s, cells))
    (hlength : cells'.length ≤ cs.length + 1) (hscan : ∀ fuel, scan? fuel s cells = scan? fuel s' cells') :
    Leads (outside tokens columns key keyAllowed) (p.whole (c :: cs)) s' cells' := by
  refine ⟨1, ?_, fun fuel => ?_⟩
  · rw [Place.length_whole, List.length_cons]
    omega
  · rw [scan?_token hc, unroll_outside hindent, hstep]
    exact hscan fuel

/-! ## Keys that may begin -/

/-- Whether nothing but a colon of the same line takes a text for a key. -/
def Idle (key : Option KeyStart) (line : Nat) : Prop := ∀ k ∈ key, k.required = false ∧ k.cell.line < line

theorem idle_none (line : Nat) : Idle none line := fun _ h => nomatch h

theorem Idle.mono {line line' : Nat} (h : Idle key line) (hline : line ≤ line') : Idle key line' :=
  fun k hk => ⟨(h k hk).1, Nat.lt_of_lt_of_le (h k hk).2 hline⟩

theorem dropKey?_outside {line : Nat} (h : Idle key line) (tokens : List Token) (columns : List Nat)
    (keyAllowed : Bool) :
    (outside tokens columns key keyAllowed).dropKey? = some (outside tokens columns none keyAllowed) := by
  cases key with
  | none => rfl
  | some k =>
    have hrequired : k.required = false := (h k rfl).1
    simp [dropKey?, outside, hrequired]

/-- A key may begin at a cell, and must if the innermost collection begins there. -/
theorem saveKey?_outside {line : Nat} (h : Idle key line) (tokens : List Token) (columns : List Nat) (cell : Cell) :
    ∃ required, (outside tokens columns key true).saveKey? cell =
        some (outside tokens columns (some ⟨tokens.length, cell, required⟩) false) ∧
      (columns.head? ≠ some cell.column → required = false) := by
  refine ⟨decide ((outside tokens columns none true).indent = cell.column), ?_, fun hne => decide_eq_false ?_⟩
  · rw [saveKey?, show (outside tokens columns key true).keyAllowed = true from rfl, if_pos rfl, dropKey?_outside h]
    rfl
  · intro hindent
    cases columns with
    | nil => cases hindent
    | cons d ds =>
      have hd : (d : Int) = cell.column := hindent
      exact hne (congrArg some (Int.ofNat.inj hd))

/-- Inside the innermost collection, a key need not begin where it may. -/
theorem saveKey?_inner (h : Idle key (p.line + 1)) (hcolumn : column < p.column) (tokens : List Token)
    (columns : List Nat) (keyAllowed : Bool) (c : Char) : ∃ key', Idle key' (p.line + 1) ∧
      (outside tokens (column :: columns) key keyAllowed).saveKey? (p.cell c) =
        some (outside tokens (column :: columns) key' false) := by
  cases keyAllowed with
  | false => exact ⟨key, h, rfl⟩
  | true =>
    obtain ⟨required, hsave, hinner⟩ := saveKey?_outside h tokens (column :: columns) (p.cell c)
    have hrequired : required = false := hinner fun heq => by
      have : column = p.column := Option.some.inj heq
      omega
    refine ⟨_, fun k hk => ?_, hsave⟩
    obtain rfl := Option.some.inj hk
    exact ⟨hrequired, Nat.lt_succ_self _⟩

/-! ## Signs -/

theorem map_char_whole (p : Place) (cs : List Char) : (p.whole cs).map Cell.char = cs ++ [endChar] := by
  induction cs generalizing p with
  | nil => rfl
  | cons c cs ih => rw [Place.whole_cons, List.map_cons, ih]; rfl

theorem atMark_eq_false {mark : Char} (hmark : mark ≠ endChar) (h : cs.take 3 ≠ [mark, mark, mark]) :
    Cell.atMark mark (p.whole cs) = false := by
  have hchars : Cell.chars 3 (p.whole cs) ≠ [mark, mark, mark] := by
    rw [Cell.chars, List.map_take, map_char_whole]
    intro heq
    match cs with
    | [] => exact hmark.symm (List.cons.inj heq).1
    | [_] => exact hmark.symm (List.cons.inj (List.cons.inj heq).2).1
    | [_, _] => exact hmark.symm (List.cons.inj (List.cons.inj (List.cons.inj heq).2).2).1
    | _ :: _ :: _ :: _ => exact h heq
  simp [Cell.atMark, hchars]

/-- Whether a line goes on as no directive and no mark of a document does. -/
structure NoMark (p : Place) (cs : List Char) : Prop where
  directive : p.column = 0 → cs.head? ≠ some '%'
  start : cs.take 3 ≠ ['-', '-', '-']
  ending : cs.take 3 ≠ ['.', '.', '.']

theorem NoMark.tests (h : NoMark p (c :: cs)) :
    (decide ((p.cell c).column = 0) && decide ((p.cell c).char = '%')) = false ∧
      Cell.atMark '-' (p.cell c :: (p.step c).whole cs) = false ∧
        Cell.atMark '.' (p.cell c :: (p.step c).whole cs) = false := by
  refine ⟨?_, atMark_eq_false (by decide) h.start, atMark_eq_false (by decide) h.ending⟩
  by_cases hcolumn : p.column = 0
  · have hc : c ≠ '%' := fun hc => h.directive hcolumn (congrArg some hc)
    simp [hc]
  · simp [hcolumn]

theorem noMark_of_ne (p : Place) (cs : List Char) (hpercent : c ≠ '%') (hminus : c ≠ '-') (hpoint : c ≠ '.') :
    NoMark p (c :: cs) := by
  refine ⟨fun _ h => hpercent (Option.some.inj h), fun h => hminus ?_, fun h => hpoint ?_⟩
  · exact (List.cons.inj h).1
  · exact (List.cons.inj h).1

/-! ## Scalars -/

/-- How a plain scalar begins. -/
theorem begins_of_mayBePlain (h : Style.mayBePlain cs) : ∃ c tail, cs = c :: tail ∧ startsToken c ∧ c ∉ Style.signs ∧
    cs.take 3 ≠ ['-', '-', '-'] ∧ cs.take 3 ≠ ['.', '.', '.'] ∧
      (c = '?' ∨ c = ':' ∨ c = '-' → ∃ d ∈ tail.head?, isSeparator d = false) := by
  simp only [Style.mayBePlain, Style.needsNoEscape, Bool.and_eq_true, Bool.not_eq_true'] at h
  obtain ⟨⟨⟨⟨hprint, -⟩, hline⟩, hbegin⟩, -⟩ := h
  rw [List.all_eq_true] at hprint
  rw [List.any_eq_false] at hline
  simp only [Style.beginsOtherwise, Bool.or_eq_false_iff, decide_eq_false_iff_not] at hbegin
  obtain ⟨⟨hstart, hending⟩, hbegin⟩ := hbegin
  cases cs with
  | nil => cases hbegin
  | cons c tail =>
    simp only [Bool.or_eq_false_iff, List.contains_eq_mem, decide_eq_false_iff_not] at hbegin
    obtain ⟨⟨hsigns, hspace⟩, halone⟩ := hbegin
    have hcomment : c ≠ '#' := fun hc => hsigns (hc ▸ by decide)
    have hlinec : endsLine c = false := by simpa using hline c List.mem_cons_self
    refine ⟨c, tail, rfl, Scalar.startsToken_iff.2 ⟨hprint c List.mem_cons_self, hspace, hlinec, hcomment⟩, hsigns,
      hstart, hending, fun hc => ?_⟩
    have hor : (decide (c = '?') || decide (c = ':') || decide (c = '-')) = true := by
      obtain rfl | rfl | rfl := hc <;> rfl
    rw [hor, Bool.true_and, Bool.or_eq_false_iff] at halone
    cases tail with
    | nil => cases halone.1
    | cons d ds =>
      have hd : d ∈ c :: d :: ds := by simp
      have hlined : endsLine d = false := by simpa using hline d hd
      exact ⟨d, rfl, (Style.isSeparator_eq_isSpace (hprint d hd) hlined).trans halone.2⟩

theorem take_three_append {mark d : Char} {cs more : List Char} (hd : d ≠ mark) (hcs : cs.take 3 ≠ [mark, mark, mark]) :
    (cs ++ d :: more).take 3 ≠ [mark, mark, mark] := by
  intro heq
  match cs with
  | [] => exact hd (List.cons.inj heq).1
  | [_] => exact hd (List.cons.inj (List.cons.inj heq).2).1
  | [_, _] => exact hd (List.cons.inj (List.cons.inj (List.cons.inj heq).2).2).1
  | _ :: _ :: _ :: _ => exact hcs heq

theorem beginsPlain_of_not_mem_signs {next : Char} (hstarts : startsToken c) (hsigns : c ∉ Style.signs)
    (halone : c = '?' ∨ c = ':' ∨ c = '-' → isSeparator next = false) : beginsPlain false c next = true := by
  obtain ⟨hprint, hspace, hline, -⟩ := Scalar.startsToken_iff.1 hstarts
  rw [beginsPlain]
  split
  next hc =>
    have := halone (.inr (.inr hc))
    simp only [isSeparator, Bool.or_eq_false_iff] at this
    rw [this.1.1]
    rfl
  next =>
    split
    next hc =>
      rw [halone (by simpa [or_assoc] using Or.inl hc)]
      rfl
    next =>
      have hreserved : c ∉ reserved := fun hmem => by
        have hall : reserved ⊆ Style.signs := by decide
        exact hsigns (hall hmem)
      rw [(Style.isSeparator_eq_isSpace hprint hline).trans hspace, ← List.contains_iff_mem, Bool.not_eq_true] at *
      rw [hreserved]
      rfl

/-- A plain scalar begins, with a colon or a line end behind it. -/
theorem step?_plain {d : Char} (h : Style.mayBePlain (c :: cs)) (hd : d = ':' ∨ d = '\n') (tokens : List Token)
    (columns : List Nat) (key : Option KeyStart) (keyAllowed : Bool) :
    (outside tokens columns key keyAllowed).step? (p.cell c) ((p.step c).whole (cs ++ d :: rest)) =
      (outside tokens columns key keyAllowed).plain? (p.cell c) ((p.step c).whole (cs ++ d :: rest)) := by
  obtain ⟨c', tail, heq, hstarts, hsigns, hstart, hending, hnext⟩ := begins_of_mayBePlain h
  obtain ⟨rfl, rfl⟩ := List.cons.inj heq
  have hne {e : Char} (he : e ∈ Style.signs) : c ≠ e := fun hc => hsigns (hc ▸ he)
  have hmark : NoMark p (c :: (cs ++ d :: rest)) :=
    ⟨fun _ hhead => hne (by decide) (Option.some.inj hhead),
      take_three_append (by obtain rfl | rfl := hd <;> decide) hstart,
      take_three_append (by obtain rfl | rfl := hd <;> decide) hending⟩
  generalize hafter : cs ++ d :: rest = after at hmark ⊢
  have halone (hc : c = '?' ∨ c = ':' ∨ c = '-') : isSeparator (after.headD endChar) = false := by
    obtain ⟨e, he, hseparator⟩ := hnext hc
    obtain ⟨es, rfl⟩ := List.head?_eq_some_iff.1 he
    rw [← hafter]
    exact hseparator
  have hsign {e : Char} (he : e = '?' ∨ e = ':' ∨ e = '-') :
      (decide (c = e) && isSeparator (after.headD endChar)) = false := by
    by_cases hc : c = e
    · rw [halone (hc ▸ he), Bool.and_false]
    · rw [decide_eq_false hc, Bool.false_and]
  have hbegins := beginsPlain_of_not_mem_signs hstarts hsigns halone
  obtain ⟨htest, htest', htest''⟩ := hmark.tests
  rw [step?, htest, htest', htest'']
  simp only [Bool.false_eq_true, if_false, Place.char_cell, Place.headChar_whole]
  split
  all_goals try exact absurd rfl (hne (by decide))
  simp only [show (outside tokens columns key keyAllowed).inFlow = false from rfl, Bool.false_or, Bool.not_false,
    Bool.and_true, hsign (.inl rfl), hsign (.inr (.inl rfl)), hsign (.inr (.inr rfl)), hbegins, if_true,
    decide_eq_true_eq, hne (e := '|') (by decide), hne (e := '>') (by decide), if_false, Bool.false_eq_true]

/-- A plain scalar to the end of its line. -/
theorem leads_plain (h : Style.mayBePlain cs) (hcolumn : column < p.column) (hidle : Idle key (p.line + 1))
    (hrest : Dedents column rest) : ∃ key', Idle key' (p.line + 1) ∧
      Leads (outside tokens (column :: columns) key keyAllowed) (p.whole (cs ++ '\n' :: rest))
        (outside (.scalar .plain (String.ofList cs) :: tokens) (column :: columns) key' true)
        ((p.after (cs ++ ['\n'])).whole rest) := by
  obtain ⟨k, more, rfl, hk, hstart⟩ := hrest
  have hread := Scalar.plain?_line (Scalar.continues_of_mayBePlain h) hcolumn hk hstart
  obtain ⟨c, tail, rfl, hstarts, -⟩ := begins_of_mayBePlain h
  obtain ⟨key', hidle', hsave⟩ := saveKey?_inner hidle hcolumn tokens columns keyAllowed c
  rw [List.cons_append]
  refine ⟨key', hidle', leads_token hstarts (fun d hd => ?_) ?_ ?_ fun fuel => (scan?_spaces fuel _ k).symm⟩
  · obtain rfl := Option.some.inj hd
    exact hcolumn.le
  · rw [step?_plain h (.inr rfl), plain?, hsave]
    refine (congrArg (Option.bind · _) hread).trans ?_
    rfl
  · simp
    omega

/-- A quoted scalar begins. -/
theorem step?_quoted {style : Style} {quote : Char} (hquote : quote = '\x27' ∧ style = .singleQuoted ∨
    quote = '\x22' ∧ style = .doubleQuoted) (s : Scanner) : s.step? (p.cell quote) ((p.step quote).whole cs) =
      s.keyed? (p.cell quote) (quoted? style ((p.step quote).whole cs)) := by
  have hne : quote ≠ '%' ∧ quote ≠ '-' ∧ quote ≠ '.' := by obtain ⟨rfl, -⟩ | ⟨rfl, -⟩ := hquote <;> decide
  obtain ⟨htest, htest', htest''⟩ := (noMark_of_ne p cs hne.1 hne.2.1 hne.2.2).tests
  rw [step?, htest, htest', htest'']
  obtain ⟨rfl, rfl⟩ | ⟨rfl, rfl⟩ := hquote <;> rfl

/-- A text between quotes, which is read whatever is behind it. -/
theorem exists_quoted {style : Style} (hstyle : style = .singleQuoted ∨ style = .doubleQuoted) (h : style.Holds cs)
    (indent : Nat) (hindent : indent = 0 → ∀ c ∈ cs, isBreak c = false) :
    ∃ quote body, (quote = '\x27' ∧ style = .singleQuoted ∨ quote = '\x22' ∧ style = .doubleQuoted) ∧
      style.write indent cs = quote :: (body ++ ['\n']) ∧
      ∀ (p : Place) (more : List Char), 0 < p.column → more.headD endChar ≠ '\x27' →
        quoted? style (p.whole (body ++ more)) =
          some (.scalar style (String.ofList cs), (p.after body).whole more) := by
  obtain rfl | rfl := hstyle
  · have hbody := Scalar.singleQuotedText_eq indent cs
    refine ⟨'\x27', _, .inl ⟨rfl, rfl⟩, by rw [Style.write, hbody]; rfl, fun p more hcolumn hmore => ?_⟩
    rw [quoted?]
    exact congrArg (Option.map _) (Scalar.quoted?_single h.1 h.2 hbody hindent hcolumn hmore)
  · refine ⟨'\x22', cs.flatMap Style.escape ++ ['\x22'], .inr ⟨rfl, rfl⟩, by simp [Style.write],
    fun p more hcolumn _ => ?_⟩
    rw [quoted?, List.append_assoc]
    exact congrArg (Option.map _) (Scalar.quoted?_double hcolumn)

/-- A quoted scalar to the end of its line. -/
theorem leads_quoted {style : Style} (hstyle : style = .singleQuoted ∨ style = .doubleQuoted) (h : style.Holds cs)
    (hcolumn : column < p.column) (hidle : Idle key (p.line + 1)) : ∃ key', Idle key' (p.line + 1) ∧
      Leads (outside tokens (column :: columns) key keyAllowed) (p.whole (style.write (column + 2) cs ++ rest))
        (outside (.scalar style (String.ofList cs) :: tokens) (column :: columns) key' true)
        ((p.after (style.write (column + 2) cs)).whole rest) := by
  obtain ⟨quote, body, hquote, hwrite, hread⟩ := exists_quoted hstyle h (column + 2) (fun h => nomatch h)
  obtain ⟨key', hidle', hsave⟩ := saveKey?_inner hidle hcolumn tokens columns keyAllowed quote
  have hstarts : startsToken quote := by obtain ⟨rfl, -⟩ | ⟨rfl, -⟩ := hquote <;> rfl
  have hstep : 0 < (p.step quote).column := by
    have hbreak : isBreak quote = false := by obtain ⟨rfl, -⟩ | ⟨rfl, -⟩ := hquote <;> rfl
    rw [Place.step_of_not_isBreak hbreak]
    exact Nat.succ_pos _
  have hplace : p.after (quote :: (body ++ ['\n'])) = ((p.step quote).after body).step '\n' := by
    rw [Place.after_cons, Place.after_append]
    rfl
  refine ⟨key', hidle', ?_⟩
  rw [hwrite, hplace, List.cons_append, List.append_assoc]
  refine (leads_token hstarts (fun d hd => ?_) ?_ ?_ fun fuel => rfl).trans (leads_newline false)
  · obtain rfl := Option.some.inj hd
    exact hcolumn.le
  · rw [step?_quoted hquote, keyed?, hsave]
    refine (congrArg (Option.bind · _) (hread _ ('\n' :: rest) hstep fun h => nomatch h)).trans ?_
    rfl
  · simp

/-- A block of lines. -/
theorem leads_block (h : Style.Holds cs .literal) (hcolumn : column < p.column) (hidle : Idle key (p.line + 1))
    (hrest : Dedents column rest) :
    Leads (outside tokens (column :: columns) key keyAllowed) (p.whole (Style.literal.write (column + 2) cs ++ rest))
      (outside (.scalar .literal (String.ofList cs) :: tokens) (column :: columns) none true)
      ((p.after (Style.literal.write (column + 2) cs)).whole rest) := by
  obtain ⟨hblock, hmem⟩ := h
  have hprint : cs.all isPrintable := by
    simp only [Style.mayBeBlock, Style.needsNoEscape, Bool.and_eq_true] at hblock
    exact hblock.1.1
  obtain ⟨k, more, rfl, hk, hstart⟩ := hrest
  obtain ⟨body, hbody⟩ : ∃ body, Style.blockText (column + 2) cs = '|' :: body := ⟨_, rfl⟩
  have hread := Scalar.block?_literal (p := p.step '|') hprint (List.ne_nil_of_mem hmem) hk hstart hbody
  rw [Style.write, hbody, List.cons_append]
  refine leads_token rfl (fun d hd => ?_) ?_ ?_ fun fuel => (scan?_spaces fuel _ k).symm
  · obtain rfl := Option.some.inj hd
    exact hcolumn.le
  · obtain ⟨htest, htest', htest''⟩ := (noMark_of_ne p _ (c := '|') (by decide) (by decide) (by decide)).tests
    rw [step?, htest, htest', htest'']
    show block? _ .literal _ = _
    rw [block?, dropKey?_outside hidle]
    refine (congrArg (Option.bind · _) hread).trans ?_
    rfl
  · simp

/-- **A scalar to the end of its last line.** -/
theorem leads_scalar {style : Style} (h : style.Holds cs) (hcolumn : column < p.column) (hidle : Idle key (p.line + 1))
    (hrest : Dedents column rest) (tokens : List Token) (columns : List Nat) (keyAllowed : Bool) :
    ∃ key', Idle key' (p.line + 1) ∧
      Leads (outside tokens (column :: columns) key keyAllowed) (p.whole (style.write (column + 2) cs ++ rest))
        (outside (.scalar style (String.ofList cs) :: tokens) (column :: columns) key' true)
        ((p.after (style.write (column + 2) cs)).whole rest) := by
  cases style with
  | plain =>
    obtain ⟨key', hidle', hleads⟩ := leads_plain h hcolumn hidle hrest
    refine ⟨key', hidle', ?_⟩
    rw [Style.write, List.append_assoc]
    exact hleads
  | singleQuoted => exact leads_quoted (.inl rfl) h hcolumn hidle
  | doubleQuoted => exact leads_quoted (.inr rfl) h hcolumn hidle
  | literal => exact ⟨none, idle_none _, leads_block h hcolumn hidle hrest⟩
  | folded => exact h.elim

end BoundSql.Yaml.Scanner
