import BoundSql.Proofs.Yaml.Plain

/-!
# Quoted scalars are read back

A text between quotes is read up to its closing quote. Between single quotes its lines may be indented
(`Scalar.quoted?_single`), and between double quotes every character is read back from its escape
(`Scalar.quoted?_double`).
-/

namespace BoundSql.Yaml.Scalar

variable {p : Place} {c : Char} {cs rest done : List Char} {single : Bool} {gap : Gap}

theorem quotedFrom_outside (cells : List Cell) : quotedFrom single done gap .outside (p.cell c :: cells) =
    if isBlank c then quotedFrom single done (gap.blank c) .outside cells
    else if isBreak c then quotedFrom single done (gap.lineEnd c) .outside cells
    else if c = endChar || Cell.atDocumentMark (p.cell c :: cells) then none
    else if single && c = '\x27' then
      match cells with
      | q :: rest =>
        if q.char = '\x27' then
          quotedFrom single ('\x27' :: (gap.text.reverse ++ done)) Gap.none .outside rest
        else some ((gap.text.reverse ++ done).reverse, cells)
      | [] => some ((gap.text.reverse ++ done).reverse, cells)
    else if !single && c = '\x22' then some ((gap.text.reverse ++ done).reverse, cells)
    else if !single && c = '\\' then quotedFrom single (gap.text.reverse ++ done) Gap.none .begun cells
    else quotedFrom single (c :: (gap.text.reverse ++ done)) Gap.none .outside cells := by
  rw [quotedFrom]
  rfl

theorem quotedFrom_space : quotedFrom single done gap .outside (p.whole (' ' :: cs)) =
    quotedFrom single done (gap.blank ' ') .outside ((p.step ' ').whole cs) := by
  rw [Place.whole_cons, quotedFrom_outside]
  rfl

theorem quotedFrom_break (hprint : isPrintable c) (hbreak : isBreak c) :
    quotedFrom single done gap .outside (p.whole (c :: cs)) =
      quotedFrom single done (gap.lineEnd c) .outside ((p.step c).whole cs) := by
  have hspace : c ≠ ' ' := by rintro rfl; cases hbreak
  have hblank : isBlank c = false := (Style.isBlank_eq_isSpace hprint).trans (by simpa [Style.isSpace] using hspace)
  rw [Place.whole_cons, quotedFrom_outside, hblank, hbreak]
  rfl

theorem quotedFrom_char (hprint : isPrintable c) (hspace : Style.isSpace c = false) (hline : endsLine c = false)
    (hcolumn : 0 < p.column) (hquote : c ≠ if single then '\x27' else '\x22') (hescape : single = false → c ≠ '\\') :
    quotedFrom single done gap .outside (p.whole (c :: cs)) =
      quotedFrom single (c :: (gap.text.reverse ++ done)) Gap.none .outside ((p.step c).whole cs) := by
  have hend : c ≠ endChar := ne_of_isPrintable hprint (by decide)
  have hblank : isBlank c = false := (Style.isBlank_eq_isSpace hprint).trans hspace
  have hbreak : isBreak c = false := (Style.isBreak_eq_endsLine hprint).trans hline
  rw [Place.whole_cons, quotedFrom_outside, hblank, hbreak, atDocumentMark_eq_false hcolumn]
  cases single with
  | true => simp [hend, show c ≠ '\x27' from hquote]
  | false => simp [hend, show c ≠ '\x22' from hquote, hescape rfl]

/-- The indentation of a continued line counts for nothing. -/
theorem quotedFrom_indentation (hbroken : gap.broken) (k : Nat) :
    quotedFrom single done gap .outside (p.whole (List.replicate k ' ' ++ rest)) =
      quotedFrom single done gap .outside ((p.after (List.replicate k ' ')).whole rest) := by
  induction k generalizing p with
  | zero => rfl
  | succ k ih =>
    have hblank : gap.blank ' ' = gap := if_pos hbroken
    rw [List.replicate_succ, List.cons_append, quotedFrom_space, hblank, ih]
    rfl

/-! ## Between single quotes -/

theorem quotedFrom_twice (hcolumn : 0 < p.column) :
    quotedFrom true done gap .outside (p.whole ('\x27' :: '\x27' :: cs)) =
      quotedFrom true ('\x27' :: (gap.text.reverse ++ done)) Gap.none .outside
        ((p.after ['\x27', '\x27']).whole cs) := by
  rw [Place.whole_cons, quotedFrom_outside, atDocumentMark_eq_false hcolumn]
  rfl

theorem quotedFrom_close (hcolumn : 0 < p.column) (hrest : rest.headD endChar ≠ '\x27') :
    quotedFrom true done gap .outside (p.whole ('\x27' :: rest)) =
      some (done.reverse ++ gap.text, (p.step '\x27').whole rest) := by
  rw [Place.whole_cons, quotedFrom_outside, atDocumentMark_eq_false hcolumn]
  cases rest with
  | nil => simp [isBlank, isBreak, endChar]
  | cons c cs => simp [isBlank, isBreak, endChar, show c ≠ '\x27' from hrest]

/-- A quote written twice. -/
def doubled (c : Char) : List Char := if c = '\x27' then [c, c] else [c]

/-- Whether a line begins behind some characters, where `atStart` says whether one begins in front of them. -/
def endsBroken : (atStart : Bool) → List Char → Bool
  | atStart, [] => atStart
  | _, c :: cs => endsBroken (isBreak c) cs

/-- What is left of a gap in front of more characters of a text between single quotes. -/
structure Between (atStart : Bool) (gap : Gap) (cs : List Char) : Prop where
  broken : gap.broken = atStart
  line : atStart → gap.first ≠ ['\n'] ∧ ∀ c ∈ cs.head?, Style.isSpace c = false
  word : atStart = false → gap.blanks ≠ [] → ∀ c ∈ cs.head?, endsLine c = false

namespace Between

variable {atStart : Bool}

theorem lineEnd (h : Between atStart gap (c :: cs)) (hline : endsLine c) (hnewline : c ≠ '\n')
    (hindent : (endsLine c && cs.head?.any Style.isSpace) = false) :
    Between true (gap.lineEnd c) cs ∧ (gap.lineEnd c).text = gap.text ++ [c] := by
  have hhead : ∀ d ∈ cs.head?, Style.isSpace d = false := fun d hd => by
    rw [hline, hd] at hindent
    exact hindent
  rw [Gap.lineEnd]
  by_cases hbroken : gap.broken
  · have hfirst := (h.line (h.broken.symm.trans hbroken)).1
    rw [if_pos hbroken]
    exact ⟨⟨hbroken, fun _ => ⟨hfirst, hhead⟩, fun h => nomatch h⟩, by simp [Gap.text, hbroken, hfirst]⟩
  · have hblanks : gap.blanks = [] := by
      by_contra hne
      have := h.word (h.broken.symm.trans (by simpa using hbroken)) hne c rfl
      rw [hline] at this
      cases this
    rw [if_neg hbroken]
    refine ⟨⟨rfl, fun _ => ⟨by simpa using hnewline, hhead⟩, fun h => nomatch h⟩, ?_⟩
    simp [Gap.text, hbroken, hblanks, hnewline]

theorem blank (h : Between false gap (' ' :: cs)) (hspace : (Style.isSpace ' ' && cs.head?.any endsLine) = false) :
    Between false (gap.blank ' ') cs ∧ (gap.blank ' ').text = gap.text ++ [' '] := by
  have hbroken := h.broken
  refine ⟨⟨?_, (fun h => nomatch h), fun _ _ d hd => ?_⟩, ?_⟩
  · simp [Gap.blank, hbroken]
  · rw [hd] at hspace
    exact hspace
  · simp [Gap.blank, Gap.text, hbroken]

theorem none (cs : List Char) : Between false Gap.none cs := ⟨rfl, (fun h => nomatch h), fun _ h => absurd rfl h⟩

end Between

/-- The indentation in front of a word, if a line begins there. -/
theorem quotedFrom_start {atStart : Bool} (hbroken : gap.broken = atStart) {indent : Nat} (hpos : 0 < indent)
    (hcolumn : atStart = false → 0 < p.column) (rest : List Char) :
    quotedFrom single done gap .outside (p.whole ((if atStart then List.replicate indent ' ' else []) ++ rest)) =
        quotedFrom single done gap .outside
          ((p.after (if atStart then List.replicate indent ' ' else [])).whole rest) ∧
      0 < (p.after (if atStart then List.replicate indent ' ' else [])).column := by
  cases atStart with
  | false => exact ⟨rfl, hcolumn rfl⟩
  | true =>
    refine ⟨quotedFrom_indentation hbroken indent, ?_⟩
    have hspaces : ∀ c ∈ List.replicate indent ' ', isBreak c = false := fun c hc => by
      rw [List.eq_of_mem_replicate hc]
      rfl
    rw [if_pos rfl, Place.column_after_of_not_isBreak hspaces, List.length_replicate]
    omega

/-- A word of a text between single quotes. -/
theorem quotedFrom_doubled (hprint : isPrintable c) (hspace : Style.isSpace c = false) (hline : endsLine c = false)
    (hcolumn : 0 < p.column) : quotedFrom true done gap .outside (p.whole (doubled c ++ cs)) =
      quotedFrom true (c :: (gap.text.reverse ++ done)) Gap.none .outside ((p.after (doubled c)).whole cs) := by
  rw [doubled]
  split
  next hquote =>
    subst hquote
    exact quotedFrom_twice hcolumn
  next hquote => exact quotedFrom_char hprint hspace hline hcolumn hquote (fun h => nomatch h)

theorem indented_doubled {atStart : Bool} {indent : Nat} (hbreak : isBreak c = false) (cs : List Char) :
    Style.indented indent atStart ((c :: cs).flatMap doubled) =
      (if atStart then List.replicate indent ' ' else []) ++
        (doubled c ++ Style.indented indent false (cs.flatMap doubled)) := by
  rw [List.flatMap_cons, doubled]
  split
  next hquote =>
    subst hquote
    simp [Style.indented, isBreak]
  next => simp [Style.indented, hbreak]

/-- Whether what is left of a text between single quotes is read from a place on, where a line may begin. -/
def SingleRead (indent : Nat) (done : List Char) (gap : Gap) (atStart : Bool) (p : Place) (cs rest : List Char) :
    Prop :=
  quotedFrom true done gap .outside (p.whole (Style.indented indent atStart (cs.flatMap doubled) ++
      ((if endsBroken atStart cs then List.replicate indent ' ' else []) ++ '\x27' :: rest))) =
    some (done.reverse ++ (gap.text ++ cs), (p.after (Style.indented indent atStart (cs.flatMap doubled) ++
      ((if endsBroken atStart cs then List.replicate indent ' ' else []) ++ ['\x27']))).whole rest)

namespace SingleRead

variable {atStart : Bool} {indent : Nat}

theorem nil (hbroken : gap.broken = atStart) (hpos : 0 < indent) (hcolumn : atStart = false → 0 < p.column)
    (hrest : rest.headD endChar ≠ '\x27') : SingleRead indent done gap atStart p [] rest := by
  obtain ⟨hstart, hstart'⟩ := quotedFrom_start hbroken hpos hcolumn ('\x27' :: rest)
  refine hstart.trans ?_
  rw [quotedFrom_close hstart' hrest, List.append_nil, List.flatMap_nil, Style.indented, List.nil_append,
    Place.after_append]
  rfl

theorem lineEnd (hprint : isPrintable c) (hbreak : isBreak c) (htext : (gap.lineEnd c).text = gap.text ++ [c])
    (h : SingleRead indent done (gap.lineEnd c) true (p.step c) cs rest) :
    SingleRead indent done gap atStart p (c :: cs) rest := by
  have hquote : c ≠ '\x27' := by rintro rfl; cases hbreak
  have hwritten : Style.indented indent atStart ((c :: cs).flatMap doubled) =
      c :: Style.indented indent true (cs.flatMap doubled) := by
    rw [List.flatMap_cons, doubled, if_neg hquote, List.singleton_append, Style.indented, if_pos hbreak]
  rw [SingleRead, endsBroken, hbreak, hwritten, List.cons_append, quotedFrom_break hprint hbreak, h, htext]
  simp

theorem space (htext : (gap.blank ' ').text = gap.text ++ [' '])
    (h : SingleRead indent done (gap.blank ' ') false (p.step ' ') cs rest) :
    SingleRead indent done gap false p (' ' :: cs) rest := by
  have hwritten : Style.indented indent false ((' ' :: cs).flatMap doubled) =
      ' ' :: Style.indented indent false (cs.flatMap doubled) := indented_doubled rfl cs
  have hbreak : isBreak ' ' = false := rfl
  rw [SingleRead, endsBroken, hbreak, hwritten, List.cons_append, quotedFrom_space, h, htext]
  simp

theorem word (hprint : isPrintable c) (hspace : Style.isSpace c = false) (hline : endsLine c = false)
    (hbroken : gap.broken = atStart) (hpos : 0 < indent) (hcolumn : atStart = false → 0 < p.column)
    (h : ∀ q : Place, 0 < q.column → SingleRead indent (c :: (gap.text.reverse ++ done)) Gap.none false q cs rest) :
    SingleRead indent done gap atStart p (c :: cs) rest := by
  have hbreak : isBreak c = false := (Style.isBreak_eq_endsLine hprint).trans hline
  obtain ⟨hstart, hstart'⟩ := quotedFrom_start (p := p) hbroken hpos hcolumn (doubled c ++
    (Style.indented indent false (cs.flatMap doubled) ++
      ((if endsBroken false cs then List.replicate indent ' ' else []) ++ '\x27' :: rest)))
  have hdoubled : ∀ d ∈ doubled c, isBreak d = false := by
    intro d hd
    rw [doubled] at hd
    split at hd <;> simp at hd <;> rwa [hd]
  have hbehind : 0 < ((p.after (if atStart then List.replicate indent ' ' else [])).after (doubled c)).column := by
    rw [Place.column_after_of_not_isBreak hdoubled]
    omega
  rw [SingleRead, endsBroken, hbreak, indented_doubled hbreak, List.append_assoc, List.append_assoc, hstart,
    quotedFrom_doubled hprint hspace hline hstart', h _ hbehind]
  simp [Gap.text, Gap.none, Place.after_append]

end SingleRead

/-- **A text between single quotes is read back**, also if its lines are indented. -/
theorem quotedFrom_single (done : List Char) {atStart : Bool} {indent : Nat} (hprint : cs.all isPrintable)
    (hnewline : '\n' ∉ cs) (hspace : Style.adjacent Style.isSpace endsLine cs = false)
    (hindent : Style.adjacent endsLine Style.isSpace cs = false) (hgap : Between atStart gap cs) (hpos : 0 < indent)
    (hcolumn : atStart = false → 0 < p.column) (hrest : rest.headD endChar ≠ '\x27') :
    SingleRead indent done gap atStart p cs rest := by
  induction cs generalizing atStart gap p done with
  | nil => exact .nil hgap.broken hpos hcolumn hrest
  | cons c cs ih =>
    rw [List.all_cons, Bool.and_eq_true] at hprint
    rw [List.mem_cons, not_or] at hnewline
    rw [Style.adjacent_cons, Bool.or_eq_false_iff] at hspace hindent
    have hnext {atStart : Bool} (done : List Char) {gap : Gap} (hgap : Between atStart gap cs) {q : Place}
        (hq : atStart = false → 0 < q.column) : SingleRead indent done gap atStart q cs rest :=
      ih done hprint.2 hnewline.2 hspace.2 hindent.2 hgap hq
    by_cases hbreak : isBreak c
    · have hline : endsLine c := (Style.isBreak_eq_endsLine hprint.1).symm.trans hbreak
      obtain ⟨hgap', htext⟩ := hgap.lineEnd hline (Ne.symm hnewline.1) hindent.1
      exact .lineEnd hprint.1 hbreak htext (hnext done hgap' fun h => nomatch h)
    · have hline : endsLine c = false := (Style.isBreak_eq_endsLine hprint.1).symm.trans (by simpa using hbreak)
      by_cases hc : Style.isSpace c
      · obtain rfl : c = ' ' := by simpa [Style.isSpace] using hc
        obtain rfl : atStart = false := by
          by_contra hstart
          have := (hgap.line (by simpa using hstart)).2 ' ' rfl
          cases this
        obtain ⟨hgap', htext⟩ := hgap.blank hspace.1
        exact .space htext (hnext done hgap' fun _ => Nat.succ_pos _)
      · exact .word hprint.1 (by simpa using hc) hline hgap.broken hpos hcolumn fun q hq =>
          hnext _ (.none cs) fun _ => hq

theorem endsBroken_eq (cs : List Char) (atStart : Bool) :
    endsBroken atStart cs = if cs = [] then atStart else cs.getLast?.any isBreak := by
  induction cs generalizing atStart with
  | nil => rfl
  | cons c cs ih =>
    rw [endsBroken, ih]
    cases cs <;> simp

/-- What stands between the opening quote of a text and what follows its closing quote. -/
theorem singleQuotedText_eq (indent : Nat) (cs : List Char) : Style.singleQuotedText indent cs =
    '\x27' :: (Style.indented indent false (cs.flatMap doubled) ++
      ((if endsBroken false cs then List.replicate indent ' ' else []) ++ ['\x27'])) := by
  have hends : (cs.getLast?.any isBreak) = endsBroken false cs := by
    rw [endsBroken_eq]
    split
    next hnil => rw [hnil]; rfl
    next => rfl
  rw [Style.singleQuotedText, hends, List.append_assoc, List.cons_append]
  rfl

/-- **A text between single quotes is read back.** -/
theorem quoted?_single {indent : Nat} {body : List Char} (h : Style.mayBeQuoted cs) (hnewline : '\n' ∉ cs)
    (hbody : Style.singleQuotedText indent cs = '\x27' :: body) (hpos : indent = 0 → ∀ c ∈ cs, isBreak c = false)
    (hcolumn : 0 < p.column) (hrest : rest.headD endChar ≠ '\x27') :
    quoted? true (p.whole (body ++ rest)) = some (cs, (p.after body).whole rest) := by
  simp only [Style.mayBeQuoted, Style.needsNoEscape, Bool.and_eq_true, Bool.not_eq_true'] at h
  obtain ⟨⟨hprint, hspace⟩, hindent⟩ := h
  obtain ⟨i, hi, hbody⟩ : ∃ i, 0 < i ∧ Style.singleQuotedText i cs = '\x27' :: body := by
    by_cases hzero : indent = 0
    · have hdoubled : ∀ c ∈ cs.flatMap doubled, isBreak c = false := by
        intro c hc
        obtain ⟨d, hd, hc⟩ := List.mem_flatMap.1 hc
        rw [doubled] at hc
        have := hpos hzero d hd
        split at hc <;> simp at hc <;> rwa [hc]
      have hends : endsBroken false cs = false := by
        rw [endsBroken_eq]
        split
        · rfl
        · rw [Option.any_eq_false]
          exact fun c hc => by simp [hpos hzero c (List.mem_of_getLast? hc)]
      refine ⟨1, Nat.one_pos, ?_⟩
      rw [← hbody, singleQuotedText_eq, singleQuotedText_eq, Style.indented_of_not_isBreak _ hdoubled,
        Style.indented_of_not_isBreak _ hdoubled, hends]
      rfl
    · exact ⟨indent, Nat.pos_of_ne_zero hzero, hbody⟩
  rw [singleQuotedText_eq] at hbody
  obtain rfl := (List.cons.inj hbody).2
  have hread : SingleRead i [] Gap.none false p cs rest :=
    quotedFrom_single [] hprint hnewline hspace hindent (.none cs) hi (fun _ => hcolumn) hrest
  rw [quoted?]
  simpa [SingleRead, show Gap.none.text = [] from rfl] using hread

/-! ## Between double quotes -/

/-- Visible characters of one byte. -/
def isGraphic (c : Char) : Bool := '!' ≤ c && c ≤ '~'

theorem isPrintable_of_isGraphic (h : isGraphic c) : isPrintable c := by
  simp only [isGraphic, Bool.and_eq_true, decide_eq_true_eq] at h
  have hspace : ' ' ≤ c := Char.le_trans (by decide) h.1
  simp [isPrintable, hspace, h.2]

theorem isBreak_of_isGraphic (h : isGraphic c) : isBreak c = false := by
  rw [← Bool.not_eq_true]
  intro hbreak
  simp only [isBreak, Bool.or_eq_true, decide_eq_true_eq] at hbreak
  obtain (rfl | rfl) | rfl := hbreak <;> exact absurd h (by decide)

theorem utf8Size_of_isGraphic (h : isGraphic c) : c.utf8Size = 1 := by
  simp only [isGraphic, Bool.and_eq_true, decide_eq_true_eq] at h
  have hval : c.val ≤ 0x7f := UInt32.le_trans h.2 (by decide)
  exact Char.utf8Size_eq_one_iff.2 hval

/-- What a character is written as between double quotes: as it is, or as an escape of visible characters. -/
inductive Escaped (c : Char) : List Char → Prop where
  | plain (hprint : isPrintable c) (hline : endsLine c = false) (hquote : c ≠ '\x22') (hsign : c ≠ '\\') : Escaped c [c]
  | letter (l : Char) (hl : escaped? l = some c) (hgraphic : isGraphic l) : Escaped c ['\\', l]
  | digits (l : Char) (width : Nat) (hl : escapeDigits? l = some (width + 1)) (hnone : escaped? l = none)
      (hgraphic : isGraphic l) (hwidth : c.toNat < 16 ^ (width + 1)) :
      Escaped c ('\\' :: l :: Style.hexDigits (width + 1) c.toNat)

theorem escaped_escape (c : Char) : Escaped c (Style.escape c) := by
  rw [Style.escape]
  split
  next h =>
    simp only [Bool.and_eq_true, Bool.not_eq_true', decide_eq_true_eq] at h
    exact .plain h.1.1.1 h.1.1.2 h.1.2 h.2
  next =>
    split
    next l hl =>
      have hmem := List.mem_of_find?_eq_some hl
      have hgraphic : ∀ l ∈ ['0', 'a', 'b', 't', 'n', 'v', 'f', 'r', 'e', '\x22', '\\', 'N', '_', 'L', 'P'],
          isGraphic l := List.all_eq_true.1 (by decide)
      exact .letter l (by simpa using List.find?_some hl) (hgraphic l hmem)
    next =>
      split
      next hbyte => exact .digits 'x' 1 rfl rfl rfl (Nat.lt_of_le_of_lt hbyte (by decide))
      next =>
        split
        next hplane => exact .digits 'u' 3 rfl rfl rfl (Nat.lt_of_le_of_lt hplane (by decide))
        next => exact .digits 'U' 7 rfl rfl rfl (Nat.lt_of_lt_of_le c.val.toNat_lt (by decide))

theorem hexValue?_upper {n : Nat} (h : n < 16) : Text.hexValue? (Text.hexDigit n).toUpper = some n := by
  have hall : ∀ k : Fin 16, Text.hexValue? (Text.hexDigit k).toUpper = some k.val := by decide
  exact hall ⟨n, h⟩

theorem quotedFrom_digit (left value : Nat) {d : Nat} (hd : Text.hexValue? c = some d) :
    quotedFrom single done gap (.digits (left + 2) value) (p.whole (c :: cs)) =
      quotedFrom single done gap (.digits (left + 1) (value * 16 + d)) ((p.step c).whole cs) := by
  rw [Place.whole_cons, quotedFrom, Place.char_cell, hd]
  rfl

theorem quotedFrom_lastDigit (value : Nat) {d : Nat} (hd : Text.hexValue? c = some d) {e : Char}
    (he : value * 16 + d = e.toNat) :
    quotedFrom single done gap (.digits 1 value) (p.whole (c :: cs)) =
      quotedFrom single (e :: done) Gap.none .outside ((p.step c).whole cs) := by
  have hcode : charOfCode? (value * 16 + d) = some e := by
    rw [he, charOfCode?, if_pos (show e.toNat.isValidChar from e.valid), Char.ofNat_toNat]
  rw [Place.whole_cons, quotedFrom, Place.char_cell, hd]
  simp only [Nat.lt_irrefl, if_false, hcode]

theorem hexDigits_succ (width n : Nat) : Style.hexDigits (width + 1) n =
    Style.hexDigits width (n / 16) ++ [(Text.hexDigit (n % 16)).toUpper] := by
  rw [Style.hexDigits, Text.hexDigits, List.map_append]
  rfl

/-- Digits in front of at least one more. -/
theorem quotedFrom_digits (width left value : Nat) {n : Nat} (hn : n < 16 ^ width) :
    quotedFrom single done gap (.digits (width + (left + 1)) value) (p.whole (Style.hexDigits width n ++ rest)) =
      quotedFrom single done gap (.digits (left + 1) (value * 16 ^ width + n))
        ((p.after (Style.hexDigits width n)).whole rest) := by
  induction width generalizing left n rest with
  | zero =>
    obtain rfl : n = 0 := by simpa using hn
    simp [Style.hexDigits, Text.hexDigits]
  | succ width ih =>
    have hn' : n / 16 < 16 ^ width := by
      rw [Nat.pow_succ] at hn
      omega
    have hvalue : (value * 16 ^ width + n / 16) * 16 + n % 16 = value * 16 ^ (width + 1) + n := by
      rw [Nat.pow_succ, Nat.add_mul, Nat.mul_assoc]
      omega
    rw [hexDigits_succ, List.append_assoc, show width + 1 + (left + 1) = width + (left + 1 + 1) by omega,
      ih (left + 1) hn', List.singleton_append, quotedFrom_digit left _ (hexValue?_upper (Nat.mod_lt n (by decide))), hvalue,
      Place.after_append]
    rfl

theorem quotedFrom_begun (cells : List Cell) : quotedFrom single done gap .begun (p.cell c :: cells) =
    if isBreak c then quotedFrom single done Gap.escaped .outside cells
    else match escaped? c, escapeDigits? c with
      | some e, _ => quotedFrom single (e :: done) Gap.none .outside cells
      | none, some n => quotedFrom single done Gap.none (.digits n 0) cells
      | none, none => none := by
  rw [quotedFrom]
  rfl

theorem quotedFrom_backslash (hcolumn : 0 < p.column) :
    quotedFrom false done gap .outside (p.whole ('\\' :: cs)) =
      quotedFrom false (gap.text.reverse ++ done) Gap.none .begun ((p.step '\\').whole cs) := by
  rw [Place.whole_cons, quotedFrom_outside, atDocumentMark_eq_false hcolumn]
  rfl

/-- A character other than a space is read back from its escape. -/
theorem quotedFrom_escaped {written : List Char} (h : Escaped c written) (hspace : Style.isSpace c = false)
    (hcolumn : 0 < p.column) : quotedFrom false done gap .outside (p.whole (written ++ rest)) =
      quotedFrom false (c :: (gap.text.reverse ++ done)) Gap.none .outside ((p.after written).whole rest) := by
  cases h with
  | plain hprint hline hquote hsign => exact quotedFrom_char hprint hspace hline hcolumn hquote fun _ => hsign
  | letter l hl hgraphic =>
    rw [List.cons_append, quotedFrom_backslash hcolumn, List.singleton_append, Place.whole_cons, quotedFrom_begun,
      isBreak_of_isGraphic hgraphic, hl]
    rfl
  | digits l width hl hnone hgraphic hwidth =>
    have hhigh : c.toNat / 16 < 16 ^ width := by
      rw [Nat.pow_succ] at hwidth
      omega
    rw [hexDigits_succ, List.cons_append, List.cons_append, quotedFrom_backslash hcolumn, Place.whole_cons,
      quotedFrom_begun, isBreak_of_isGraphic hgraphic, hnone, hl]
    simp only [Bool.false_eq_true, if_false]
    rw [List.append_assoc, quotedFrom_digits width 0 0 hhigh, List.singleton_append,
      quotedFrom_lastDigit (e := c) _ (hexValue?_upper (Nat.mod_lt _ (by decide))) (by omega)]
    simp [Place.after_append]

theorem isGraphic_hexDigits (width n : Nat) : ∀ d ∈ Style.hexDigits width n, isGraphic d := by
  have hall : ∀ k : Fin 16, isGraphic (Text.hexDigit k).toUpper := by decide
  induction width generalizing n with
  | zero => exact fun d hd => nomatch hd
  | succ width ih =>
    intro d hd
    rw [hexDigits_succ, List.mem_append] at hd
    obtain hd | hd := hd
    · exact ih _ d hd
    · rw [List.mem_singleton] at hd
      exact hd ▸ hall ⟨n % 16, Nat.mod_lt _ (by decide)⟩

/-- A character that is not written as it is, is written in visible characters. -/
theorem graphic_of_escaped {written : List Char} (h : Escaped c written) :
    written = [c] ∧ isPrintable c ∧ endsLine c = false ∨ ∀ d ∈ written, isGraphic d := by
  cases h with
  | plain hprint hline _ _ => exact .inl ⟨rfl, hprint, hline⟩
  | letter l _ hgraphic =>
    refine .inr fun d hd => ?_
    simp only [List.mem_cons, List.not_mem_nil, or_false] at hd
    obtain rfl | rfl := hd
    · rfl
    · exact hgraphic
  | digits l width _ _ hgraphic _ =>
    refine .inr fun d hd => ?_
    simp only [List.mem_cons] at hd
    obtain rfl | rfl | hd := hd
    · rfl
    · exact hgraphic
    · exact isGraphic_hexDigits _ _ d hd

theorem not_isBreak_of_escaped {written : List Char} (h : Escaped c written) : ∀ d ∈ written, isBreak d = false := by
  intro d hd
  obtain ⟨rfl, hprint, hline⟩ | hgraphic := graphic_of_escaped h
  · rw [List.mem_singleton.1 hd]
    exact (Style.isBreak_eq_endsLine hprint).trans hline
  · exact isBreak_of_isGraphic (hgraphic d hd)

theorem quotedFrom_double (done : List Char) {gap : Gap} (hbroken : gap.broken = false) (hcolumn : 0 < p.column) :
    quotedFrom false done gap .outside (p.whole (cs.flatMap Style.escape ++ '\x22' :: rest)) =
      some (done.reverse ++ (gap.text ++ cs), (p.after (cs.flatMap Style.escape ++ ['\x22'])).whole rest) := by
  induction cs generalizing done gap p with
  | nil =>
    rw [List.flatMap_nil, List.nil_append, Place.whole_cons, quotedFrom_outside, atDocumentMark_eq_false hcolumn]
    simp [isBlank, isBreak, endChar]
  | cons c cs ih =>
    have hescaped := escaped_escape c
    have hcolumn' : 0 < (p.after (Style.escape c)).column := by
      rw [Place.column_after_of_not_isBreak (not_isBreak_of_escaped hescaped)]
      omega
    rw [List.flatMap_cons, List.append_assoc]
    by_cases hc : Style.isSpace c
    · obtain rfl : c = ' ' := by simpa [Style.isSpace] using hc
      have hblank : (gap.blank ' ').broken = false ∧ (gap.blank ' ').text = gap.text ++ [' '] := by
        simp [Gap.blank, Gap.text, hbroken]
      rw [show Style.escape ' ' = [' '] from by decide] at hcolumn' ⊢
      rw [Place.after_cons, Place.after_nil] at hcolumn'
      rw [List.singleton_append, quotedFrom_space, ih _ hblank.1 hcolumn', hblank.2]
      simp
    · rw [quotedFrom_escaped hescaped (by simpa using hc) hcolumn, ih _ rfl hcolumn']
      simp [show Gap.none.text = [] from rfl, Place.after_append]

/-- **A text between double quotes is read back.** -/
theorem quoted?_double (hcolumn : 0 < p.column) :
    quoted? false (p.whole (cs.flatMap Style.escape ++ '\x22' :: rest)) =
      some (cs, (p.after (cs.flatMap Style.escape ++ ['\x22'])).whole rest) := by
  rw [quoted?, quotedFrom_double [] rfl hcolumn]
  rfl

end BoundSql.Yaml.Scalar
