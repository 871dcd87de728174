import BoundSql.Proofs.Yaml.Place
import Mathlib.Tactic.ByContra

/-!
# Plain scalars are read back

A text that may be written plainly is read up to the end of its line (`Scalar.plain?_line`), or up to the colon behind
it if it is a key (`Scalar.plain?_colon`).
-/

namespace BoundSql.Yaml

/-! ## Neighbours -/

namespace Style

variable {first second : Char → Bool} {c : Char} {cs : List Char}

theorem adjacent_cons (c : Char) (cs : List Char) :
    adjacent first second (c :: cs) = (first c && cs.head?.any second || adjacent first second cs) := by
  cases cs with
  | nil => simp [adjacent]
  | cons d ds => simp [adjacent]

/-- A character that ends no line and may be written as it is separates no words unless it is a space. -/
theorem isSeparator_eq_isSpace (hprint : isPrintable c) (hline : endsLine c = false) : isSeparator c = isSpace c := by
  have htab : c ≠ '\t' := ne_of_isPrintable hprint (by decide)
  have hend : c ≠ endChar := ne_of_isPrintable hprint (by decide)
  simp only [endsLine, Bool.or_eq_false_iff] at hline
  simp [isSeparator, isBlank, isSpace, hline, htab, hend]

theorem isBlank_eq_isSpace (hprint : isPrintable c) : isBlank c = isSpace c := by
  have htab : c ≠ '\t' := ne_of_isPrintable hprint (by decide)
  simp [isBlank, isSpace, htab]

theorem isBreak_eq_endsLine (hprint : isPrintable c) : isBreak c = endsLine c := by
  have hr : c ≠ '\r' := ne_of_isPrintable hprint (by decide)
  have hn : c ≠ '\u0085' := ne_of_isPrintable hprint (by decide)
  simp [endsLine, hr, hn]

/-! ## Indented lines -/

theorem indented_of_not_isBreak (indent : Nat) (h : ∀ c ∈ cs, isBreak c = false) : indented indent false cs = cs := by
  induction cs with
  | nil => rfl
  | cons c cs ih =>
    rw [indented, h c List.mem_cons_self, ih fun d hd => h d (List.mem_cons_of_mem c hd)]
    rfl

theorem indented_breaks {ends : List Char} (indent : Nat) (h : ∀ c ∈ ends, isBreak c) (cs : List Char) :
    indented indent true (ends ++ cs) = ends ++ indented indent true cs := by
  induction ends with
  | nil => rfl
  | cons c ends ih =>
    rw [List.cons_append, indented, if_pos (h c List.mem_cons_self), ih fun d hd => h d (List.mem_cons_of_mem c hd)]
    rfl

theorem indented_start (indent : Nat) (hbreak : isBreak c = false) (cs : List Char) :
    indented indent true (c :: cs) = List.replicate indent ' ' ++ indented indent false (c :: cs) := by
  rw [indented, indented, hbreak]
  rfl

theorem indented_line {words : List Char} (indent : Nat) (h : ∀ c ∈ words, isBreak c = false) (hbreak : isBreak c)
    (cs : List Char) : indented indent false (words ++ c :: cs) = words ++ c :: indented indent true cs := by
  induction words with
  | nil => rw [List.nil_append, indented, if_pos hbreak]; rfl
  | cons d ds ih =>
    rw [List.cons_append, indented, h d List.mem_cons_self, ih fun e he => h e (List.mem_cons_of_mem d he)]
    rfl

end Style

/-! ## What comes behind a line -/

/-- Whether a token begins with a character. -/
def startsToken (c : Char) : Bool := isPrintable c && !Style.isSpace c && !endsLine c && c ≠ '#'

/-- Lines of which the first is indented by at most `column`, and begins with a token. -/
structure Dedents (column : Nat) (rest : List Char) : Prop where
  exists_start : ∃ k tail, rest = List.replicate k ' ' ++ tail ∧ k ≤ column ∧ ∀ c ∈ tail.head?, startsToken c

theorem Dedents.mono {column k : Nat} {rest : List Char} (h : Dedents column rest) (hk : column ≤ k) :
    Dedents k rest := by
  obtain ⟨j, tail, hrest, hj, hstart⟩ := h
  exact ⟨j, tail, hrest, Nat.le_trans hj hk, hstart⟩

namespace Scalar

variable {p : Place} {c : Char} {cs rest done : List Char} {indent : Int}

theorem atDocumentMark_eq_false (hcolumn : 0 < p.column) (cells : List Cell) :
    Cell.atDocumentMark (p.cell c :: cells) = false := by
  have hne : p.column ≠ 0 := by omega
  simp [Cell.atDocumentMark, Cell.atMark, hne]

/-! ## Plain scalars -/

/-- Whether a plain scalar that ends in blanks or not goes on with these characters up to their end. -/
def Continues : (gap : Bool) → List Char → Prop
  | gap, [] => gap = false
  | gap, c :: cs =>
    isPrintable c ∧ endsLine c = false ∧
      if Style.isSpace c then Continues true cs
      else (gap → c ≠ '#') ∧ (c = ':' → ∃ d ∈ cs.head?, !Style.isSpace d) ∧ Continues false cs

/-- A gap of blanks. -/
def blanksGap (blanks : List Char) : Gap := ⟨blanks, false, [], []⟩

theorem Continues.head {gap : Bool} (h : Continues gap (c :: cs)) : isPrintable c ∧ endsLine c = false := ⟨h.1, h.2.1⟩

theorem plainFrom_cell (gap : Gap) (cells : List Cell) : plainFrom false indent done gap (p.cell c :: cells) =
    if isBlank c then
      if gap.broken && c = '\t' && (p.column : Int) < indent then none
      else plainFrom false indent done (gap.blank c) cells
    else if isBreak c then plainFrom false indent done (gap.lineEnd c) cells
    else if c = endChar || (!gap.isEmpty &&
        (c = '#' || Cell.atDocumentMark (p.cell c :: cells) || (p.column : Int) < indent)) then
      some ⟨done.reverse, gap.broken, p.cell c :: cells⟩
    else if c = ':' && isSeparator (Cell.headChar cells) then some ⟨done.reverse, gap.broken, p.cell c :: cells⟩
    else plainFrom false indent (c :: (gap.text.reverse ++ done)) Gap.none cells := by
  rw [← Bool.or_false (decide (c = ':') && _)]
  rfl

theorem plainFrom_space (blanks : List Char) : plainFrom false indent done (blanksGap blanks) (p.whole (' ' :: cs)) =
    plainFrom false indent done (blanksGap (' ' :: blanks)) ((p.step ' ').whole cs) := rfl

theorem plainFrom_char (hprint : isPrintable c) (hline : endsLine c = false) (hspace : Style.isSpace c = false)
    (blanks : List Char) (hcomment : blanks ≠ [] → c ≠ '#' ∧ indent ≤ p.column ∧ 0 < p.column)
    (hcolon : c = ':' → isSeparator (cs.headD endChar) = false) :
    plainFrom false indent done (blanksGap blanks) (p.whole (c :: cs)) =
      plainFrom false indent (c :: (blanks ++ done)) Gap.none ((p.step c).whole cs) := by
  have hend : c ≠ endChar := ne_of_isPrintable hprint (by decide)
  have hblank : isBlank c = false := (Style.isBlank_eq_isSpace hprint).trans hspace
  have hbreak : isBreak c = false := (Style.isBreak_eq_endsLine hprint).trans hline
  have htext : (blanksGap blanks).text.reverse = blanks := List.reverse_reverse blanks
  have hgap : (!(blanksGap blanks).isEmpty && (c = '#' || Cell.atDocumentMark (p.cell c :: (p.step c).whole cs) ||
      decide ((p.column : Int) < indent))) = false := by
    cases blanks with
    | nil => rfl
    | cons b bs =>
      obtain ⟨hne, hcolumn, hpos⟩ := hcomment (List.cons_ne_nil b bs)
      simp [hne, atDocumentMark_eq_false hpos, hcolumn]
  have hcolon' : (c = ':' && isSeparator (cs.headD endChar)) = false := by
    by_cases hc : c = ':'
    · rw [hcolon hc, Bool.and_false]
    · rw [decide_eq_false hc, Bool.false_and]
  rw [Place.whole_cons, plainFrom_cell, Place.headChar_whole, hblank, hbreak, hgap, hcolon', decide_eq_false hend,
    htext]
  rfl

theorem plainFrom_text {gap : Bool} (h : Continues gap cs) (done blanks rest : List Char) (hgap : gap = !blanks.isEmpty)
    (hcolumn : indent ≤ p.column + 1) (hblank : gap → indent ≤ p.column ∧ 0 < p.column) :
    plainFrom false indent done (blanksGap blanks) (p.whole (cs ++ rest)) =
      plainFrom false indent (cs.reverse ++ (blanks ++ done)) Gap.none ((p.after cs).whole rest) := by
  induction cs generalizing gap blanks done p with
  | nil =>
    have hnil : blanks = [] := by simpa [show gap = false from h] using hgap
    subst hnil
    rfl
  | cons c cs ih =>
    obtain ⟨hprint, hline, htail⟩ := h
    have hbreak : isBreak c = false := (Style.isBreak_eq_endsLine hprint).trans hline
    have hstep := Place.step_of_not_isBreak (p := p) hbreak
    have hnext : (p.step c).column = p.column + 1 := by rw [hstep]
    split at htail
    next hspace =>
      obtain rfl : c = ' ' := by simpa [Style.isSpace] using hspace
      rw [List.cons_append, plainFrom_space, ih htail done (' ' :: blanks) rfl (by omega) (fun _ => by omega)]
      simp
    next hspace =>
      obtain ⟨hcomment, hcolon, htail⟩ := htail
      have hgap' : blanks ≠ [] → gap := fun hne => by simpa [hgap] using hne
      rw [List.cons_append, plainFrom_char hprint hline (by simpa using hspace) blanks
        (fun hne => ⟨hcomment (hgap' hne), hblank (hgap' hne)⟩) ?_]
      · refine (ih htail _ [] rfl (by omega) (fun h => nomatch h)).trans ?_
        simp
      · intro hc
        obtain ⟨d, hd, hspace'⟩ := hcolon hc
        obtain ⟨ds, rfl⟩ := List.head?_eq_some_iff.1 hd
        obtain ⟨hprint', hline'⟩ := htail.head
        rw [List.cons_append, List.headD_cons, Style.isSeparator_eq_isSpace hprint' hline']
        simpa using hspace'

theorem plainFrom_indentation {gap : Gap} (hbroken : gap.broken) (k : Nat) :
    plainFrom false indent done gap (p.whole (List.replicate k ' ' ++ rest)) =
      plainFrom false indent done gap ((p.after (List.replicate k ' ')).whole rest) := by
  induction k generalizing p with
  | zero => rfl
  | succ k ih =>
    have hblank : gap.blank ' ' = gap := if_pos hbroken
    rw [List.replicate_succ, List.cons_append, Place.whole_cons, plainFrom_cell, hbroken, hblank, ih]
    rfl

theorem startsToken_iff : startsToken c ↔ isPrintable c ∧ Style.isSpace c = false ∧ endsLine c = false ∧ c ≠ '#' := by
  simp [startsToken, and_assoc]

/-- A plain scalar ends in front of a token that is indented less. -/
theorem plainFrom_token {gap : Gap} (hbroken : gap.broken) (hstart : ∀ c ∈ rest.head?, startsToken c)
    (hcolumn : (p.column : Int) < indent) :
    plainFrom false indent done gap (p.whole rest) = some ⟨done.reverse, true, p.whole rest⟩ := by
  cases rest with
  | nil =>
    rw [Place.whole_nil, plainFrom_cell, hbroken]
    rfl
  | cons c cs =>
    obtain ⟨hprint, hspace, hline, -⟩ := startsToken_iff.1 (hstart c rfl)
    have hblank : isBlank c = false := (Style.isBlank_eq_isSpace hprint).trans hspace
    have hbreak : isBreak c = false := (Style.isBreak_eq_endsLine hprint).trans hline
    have hgap : gap.isEmpty = false := by rw [Gap.isEmpty, hbroken, Bool.not_true, Bool.and_false]
    rw [Place.whole_cons, plainFrom_cell, hblank, hbreak, hgap, decide_eq_true hcolumn, Bool.or_true, hbroken]
    simp

/-- **A plain scalar is read up to the end of its line**, and what follows up to the next token. -/
theorem plain?_line (h : Continues false cs) {column k : Nat} (hcolumn : column < p.column) (hk : k ≤ column)
    (hstart : ∀ c ∈ rest.head?, startsToken c) :
    plain? false (column + 1) (p.whole (cs ++ '\n' :: (List.replicate k ' ' ++ rest))) =
      some ⟨cs, true, ((p.after (cs ++ ['\n'])).after (List.replicate k ' ')).whole rest⟩ := by
  have hspaces : ∀ c ∈ List.replicate k ' ', isBreak c = false := fun c hc => by
    rw [List.eq_of_mem_replicate hc]
    rfl
  have hbreak : (p.after (cs ++ ['\n'])).column = 0 := by
    rw [Place.after_append]
    rfl
  have hend : (((p.after (cs ++ ['\n'])).after (List.replicate k ' ')).column : Int) < column + 1 := by
    rw [Place.column_after_of_not_isBreak hspaces, hbreak, List.length_replicate]
    omega
  have htext := plainFrom_text (p := p) h [] [] ('\n' :: (List.replicate k ' ' ++ rest)) rfl
    (show (column : Int) + 1 ≤ p.column + 1 by omega) (fun h => nomatch h)
  rw [plain?]
  refine htext.trans ?_
  rw [Place.whole_cons, plainFrom_cell]
  have hline : p.after (cs ++ ['\n']) = (p.after cs).step '\n' := Place.after_append
  show plainFrom false _ _ (Gap.none.lineEnd '\n') (((p.after cs).step '\n').whole _) = _
  rw [← hline, plainFrom_indentation rfl, plainFrom_token rfl hstart hend]
  simp

/-- **A plain scalar is read up to the colon behind it.** -/
theorem plain?_colon (h : Continues false cs) (hcolumn : indent ≤ p.column + 1)
    (hrest : isSeparator (rest.headD endChar)) :
    plain? false indent (p.whole (cs ++ ':' :: rest)) = some ⟨cs, false, (p.after cs).whole (':' :: rest)⟩ := by
  have htext := plainFrom_text (p := p) h [] [] (':' :: rest) rfl hcolumn (fun h => nomatch h)
  rw [plain?]
  refine htext.trans ?_
  rw [Place.whole_cons, plainFrom_cell, Place.headChar_whole, hrest]
  simp [isBlank, isBreak, endChar, Gap.none, Gap.isEmpty]

theorem continues_of_not_adjacent {gap : Bool} (hprint : cs.all isPrintable) (hline : cs.any endsLine = false)
    (hcolon : Style.adjacent (· = ':') Style.isSpace cs = false)
    (hcomment : Style.adjacent Style.isSpace (· = '#') cs = false) (hlast : cs.getLast? ≠ some ':')
    (hlast' : cs.getLast?.any Style.isSpace = false) (hgap : gap → cs ≠ [] ∧ cs.head? ≠ some '#') :
    Continues gap cs := by
  induction cs generalizing gap with
  | nil =>
    cases gap with
    | false => rfl
    | true => exact absurd rfl (hgap rfl).1
  | cons c cs ih =>
    rw [List.all_cons, Bool.and_eq_true] at hprint
    rw [List.any_cons, Bool.or_eq_false_iff] at hline
    rw [Style.adjacent_cons, Bool.or_eq_false_iff] at hcolon hcomment
    have htail {gap : Bool} (hgap : gap → cs ≠ [] ∧ cs.head? ≠ some '#') (hne : cs ≠ []) : Continues gap cs := by
      obtain ⟨d, ds, rfl⟩ := List.exists_cons_of_ne_nil hne
      rw [List.getLast?_cons_cons] at hlast hlast'
      exact ih hprint.2 hline.2 hcolon.2 hcomment.2 hlast hlast' hgap
    refine ⟨hprint.1, hline.1, ?_⟩
    split
    next hspace =>
      have hne : cs ≠ [] := by
        rintro rfl
        rw [List.getLast?_singleton, Option.any_some, hspace] at hlast'
        cases hlast'
      refine htail (fun _ => ⟨hne, fun hhead => ?_⟩) hne
      rw [hspace, hhead] at hcomment
      exact absurd hcomment.1 (by decide)
    next hspace =>
      refine ⟨fun h heq => (hgap h).2 (congrArg some heq), fun heq => ?_, ?_⟩
      · subst heq
        cases cs with
        | nil => exact absurd rfl hlast
        | cons d ds => exact ⟨d, rfl, by simpa using hcolon.1⟩
      · by_cases hne : cs = []
        · subst hne
          rfl
        · exact htail (fun h => nomatch h) hne

/-- A text that may be written plainly goes on to its end. -/
theorem continues_of_mayBePlain (h : Style.mayBePlain cs) : Continues false cs := by
  simp only [Style.mayBePlain, Style.needsNoEscape, Style.endsEarly, Bool.and_eq_true, Bool.not_eq_true',
    Bool.or_eq_false_iff, decide_eq_false_iff_not] at h
  obtain ⟨⟨⟨⟨hprint, -⟩, hline⟩, -⟩, ⟨⟨hcolon, hcomment⟩, hlast⟩, hlast'⟩ := h
  exact continues_of_not_adjacent hprint hline hcolon hcomment hlast hlast' (fun h => nomatch h)

end Scalar

end BoundSql.Yaml
