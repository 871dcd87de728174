import BoundSql.Proofs.Yaml.Block
import BoundSql.Proofs.Yaml.Quoted
import BoundSql.Proofs.Yaml.Word
import Mathlib.Data.String.Basic

/-!
# Styles that hold a text

Every text is written in a style that holds it (`Style.holds_ofText`), and words are held plainly. What a style holds
is written in printable characters (`Style.all_isPrintable_write`), and on one line if the text has only one.
-/

namespace BoundSql.Yaml

open Layout (IsNumeralText isNumeralChar)
open Yaml.Scalar (isGraphic)

namespace Style

variable {cs : List Char} {style : Style}

/-- Whether a text is read back from a style. -/
def Holds (cs : List Char) : Style → Prop
  | .plain => mayBePlain cs
  | .singleQuoted => mayBeQuoted cs ∧ '\n' ∉ cs
  | .doubleQuoted => True
  | .literal => mayBeBlock cs ∧ '\n' ∈ cs
  | .folded => False

/-- **Every text is written in a style that holds it.** -/
theorem holds_ofText (s : String) : Holds s.toList (ofText s) := by
  rw [ofText]
  by_cases hlines : s.toList.contains '\n'
  · rw [if_pos hlines]
    split
    next hblock => exact ⟨hblock, List.contains_iff_mem.1 hlines⟩
    next => trivial
  · rw [if_neg hlines]
    split
    next hplain => exact (Bool.and_eq_true _ _ ▸ hplain).2
    next =>
      split
      next hquoted => exact ⟨hquoted, fun hmem => hlines (List.contains_iff_mem.2 hmem)⟩
      next => trivial

/-- A text that is written plainly stands for itself. -/
theorem ofText_eq_plain {s : String} (h : ofText s = .plain) : isAmbiguous s = false := by
  rw [ofText] at h
  split at h
  · split at h <;> cases h
  · split at h
    next hplain =>
      rw [Bool.and_eq_true, Bool.not_eq_true'] at hplain
      exact hplain.1
    next => split at h <;> cases h

/-! ## Words -/

/-- Characters that end no plain scalar, wherever they stand. -/
def isQuiet (c : Char) : Bool := isGraphic c && c ≠ ':' && c ≠ '#'

theorem isQuiet_iff {c : Char} : isQuiet c ↔ isGraphic c ∧ c ≠ ':' ∧ c ≠ '#' := by
  simp [isQuiet, and_assoc]

theorem adjacent_eq_false {first second : Char → Bool} (h : (∀ c ∈ cs, first c = false) ∨ ∀ c ∈ cs, second c = false) :
    adjacent first second cs = false := by
  rw [adjacent, List.any_eq_false]
  rintro ⟨c, d⟩ hp
  have hc := (List.of_mem_zip hp).1
  have hd := List.mem_of_mem_drop (List.of_mem_zip hp).2
  obtain h | h := h
  · simp [h c hc]
  · simp [h d hd]

theorem mayBePlain_of_quiet (h : ∀ c ∈ cs, isQuiet c) (hbegin : beginsOtherwise cs = false) : mayBePlain cs := by
  have hgraphic : ∀ c ∈ cs, isGraphic c := fun c hc => (isQuiet_iff.1 (h c hc)).1
  have hprint : ∀ c ∈ cs, isPrintable c := fun c hc => Scalar.isPrintable_of_isGraphic (hgraphic c hc)
  have hspace : ∀ c ∈ cs, isSpace c = false := fun c hc => by
    rw [← Bool.not_eq_true]
    intro hspace
    rw [show c = ' ' by simpa [isSpace] using hspace] at hc
    exact absurd (hgraphic ' ' hc) (by decide)
  have hline : ∀ c ∈ cs, endsLine c = false := fun c hc =>
    (isBreak_eq_endsLine (hprint c hc)).symm.trans (Scalar.isBreak_of_isGraphic (hgraphic c hc))
  have hcolon : ∀ c ∈ cs, decide (c = ':') = false := fun c hc => decide_eq_false (isQuiet_iff.1 (h c hc)).2.1
  have hlast : cs.getLast? ≠ some ':' := fun hlast => by
    have := hcolon ':' (List.mem_of_getLast? hlast)
    cases this
  have hlast' : cs.getLast?.any isSpace = false := by
    cases hc : cs.getLast? with
    | none => rfl
    | some c => exact hspace c (List.mem_of_getLast? hc)
  have hlines : cs.any endsLine = false := List.any_eq_false.2 fun c hc => by simp [hline c hc]
  rw [mayBePlain, needsNoEscape, endsEarly, adjacent_eq_false (.inl hspace), adjacent_eq_false (.inl hcolon),
    adjacent_eq_false (.inl hspace), decide_eq_false hlast, hlast', hlines, hbegin, List.all_eq_true.2 hprint]
  rfl

theorem isQuiet_of_isNumeralChar {c : Char} (h : isNumeralChar c) : isQuiet c := by
  simp only [isNumeralChar, Bool.or_eq_true, decide_eq_true_eq] at h
  obtain (((h | rfl) | rfl) | rfl) | rfl := h
  · simp only [Char.isDigit, Bool.and_eq_true, decide_eq_true_eq] at h
    have hlow : '!' ≤ c := Char.le_trans (by decide) (show '0' ≤ c from h.1)
    have hhigh : c ≤ '~' := Char.le_trans (show c ≤ '9' from h.2) (by decide)
    refine isQuiet_iff.2 ⟨by simp [isGraphic, hlow, hhigh], ?_, ?_⟩ <;> rintro rfl <;> exact absurd h (by decide)
  all_goals rfl

theorem beginsOtherwise_digit {c : Char} (hc : c.isDigit) (cs : List Char) : beginsOtherwise (c :: cs) = false := by
  have hne {d : Char} (hd : d.isDigit = false) : c ≠ d := by
    rintro rfl
    rw [hc] at hd
    cases hd
  have hsigns : c ∉ signs := fun hmem => by
    have hall : signs.all fun d => !d.isDigit := by decide
    exact hne (by simpa using List.all_eq_true.1 hall c hmem) rfl
  have hspace : isSpace c = false := decide_eq_false (hne rfl)
  simp [beginsOtherwise, hsigns, hspace, hne (d := '-') rfl, hne (d := '.') rfl, hne (d := '?') rfl, hne (d := ':') rfl]

/-- Numbers are written plainly, with a minus or without one. -/
theorem mayBePlain_numeral (h : IsNumeralText cs) (negative : Bool) :
    mayBePlain ((if negative then ['-'] else []) ++ cs) := by
  obtain ⟨c, hhead, hc⟩ := h.head
  obtain ⟨cs, rfl⟩ := List.head?_eq_some_iff.1 hhead
  have hquiet : ∀ d ∈ c :: cs, isQuiet d := fun d hd => isQuiet_of_isNumeralChar (h.all d hd)
  cases negative with
  | false => exact mayBePlain_of_quiet hquiet (beginsOtherwise_digit hc cs)
  | true =>
    refine mayBePlain_of_quiet (fun d hd => (List.mem_cons.1 hd).elim (fun h => h ▸ rfl) (hquiet d)) ?_
    have hminus : c ≠ '-' := by rintro rfl; cases hc
    have hspace : isSpace c = false := by
      refine decide_eq_false ?_
      rintro rfl
      cases hc
    simp [beginsOtherwise, signs, isSpace, hminus, show c ≠ ' ' from of_decide_eq_false hspace]

theorem mayBePlain_toString (n : Int) : mayBePlain (toString n).toList := by
  have hrepr (n : Nat) : IsNumeralText n.repr.toList :=
    .of_digits (Text.repr_toList_ne_nil n) (List.all_eq_true.2 (Text.all_isDigit_repr n))
  cases n with
  | ofNat n => exact mayBePlain_numeral (hrepr n) false
  | negSucc n =>
    have hdigits : (toString (Int.negSucc n)).toList = '-' :: (n + 1).repr.toList := by simp [toString, Int.repr]
    rw [hdigits]
    exact mayBePlain_numeral (hrepr (n + 1)) true

theorem mayBePlain_text (x : Binary64) : mayBePlain (layout.text x).toList := by
  cases x with
  | nan => decide
  | infinity negative => cases negative <;> decide
  | finite negative units h =>
    rw [Word.toList_text_finite]
    exact mayBePlain_numeral (Layout.isNumeralText_magnitudeText isNumeric_layout units) negative

/-! ## Written characters -/

theorem all_isPrintable_indented (h : cs.all isPrintable) (indent : Nat) (atStart : Bool) :
    (indented indent atStart cs).all isPrintable := by
  induction cs generalizing atStart with
  | nil => rfl
  | cons c cs ih =>
    rw [List.all_cons, Bool.and_eq_true] at h
    have hspaces : (List.replicate indent ' ').all isPrintable :=
      List.all_eq_true.2 fun d hd => by rw [List.eq_of_mem_replicate hd]; rfl
    rw [indented]
    split
    · rw [List.all_cons, h.1, ih h.2]
      rfl
    · rw [List.all_append, List.all_cons, h.1, ih h.2]
      split
      · rw [hspaces]
        rfl
      · rfl

theorem all_isPrintable_escape (c : Char) : (escape c).all isPrintable := by
  obtain ⟨hself, hprint, -⟩ | hgraphic := Scalar.graphic_of_escaped (Scalar.escaped_escape c)
  · rw [hself, List.all_cons, hprint]
    rfl
  · exact List.all_eq_true.2 fun d hd => Scalar.isPrintable_of_isGraphic (hgraphic d hd)

/-- **What a style holds is written in printable characters.** -/
theorem all_isPrintable_write (h : Holds cs style) (indent : Nat) : (style.write indent cs).all isPrintable := by
  have hspaces : (List.replicate indent ' ').all isPrintable :=
    List.all_eq_true.2 fun d hd => by rw [List.eq_of_mem_replicate hd]; rfl
  cases style with
  | plain =>
    have hprint : cs.all isPrintable := by
      simp only [Holds, mayBePlain, needsNoEscape, Bool.and_eq_true] at h
      exact h.1.1.1.1
    rw [write, List.all_append, hprint]
    rfl
  | singleQuoted =>
    have hprint : cs.all isPrintable := by
      have h := h.1
      simp only [mayBeQuoted, needsNoEscape, Bool.and_eq_true] at h
      exact h.1.1
    have hdoubled : (cs.flatMap Scalar.doubled).all isPrintable := by
      rw [List.all_flatMap, List.all_eq_true]
      intro c hc
      have := List.all_eq_true.1 hprint c hc
      rw [Scalar.doubled]
      split <;> simp [this]
    rw [write, Scalar.singleQuotedText_eq]
    simp only [List.all_append, List.all_cons, all_isPrintable_indented hdoubled]
    split
    · rw [hspaces]
      rfl
    · rfl
  | doubleQuoted =>
    rw [write, List.all_append, List.all_cons, List.all_flatMap, List.all_eq_true.2 fun c _ => all_isPrintable_escape c]
    rfl
  | literal =>
    have hprint : cs.all isPrintable := by
      have h := h.1
      simp only [mayBeBlock, needsNoEscape, Bool.and_eq_true] at h
      exact h.1.1
    have hsigns : (blockSigns cs).all isPrintable := by
      rw [Scalar.blockSigns_eq]
      cases Scalar.hidesIndentation cs <;> cases Scalar.chompingOf cs <;> rfl
    rw [write, blockText, List.all_append, List.all_append, List.all_cons, hsigns, all_isPrintable_indented hprint]
    split <;> rfl
  | folded => exact h.elim

/-- What is written goes to the end of a line. -/
theorem exists_lineEnd (style : Style) (indent : Nat) (cs : List Char) :
    ∃ line b, style.write indent cs = line ++ [b] ∧ isBreak b := by
  have hindented (cs : List Char) (b : Char) (hb : isBreak b) (atStart : Bool) :
      ∃ line, indented indent atStart (cs ++ [b]) = line ++ [b] := by
    induction cs generalizing atStart with
    | nil => exact ⟨[], by simp [indented, hb]⟩
    | cons c cs ih =>
      rw [List.cons_append, indented]
      split
      · obtain ⟨line, hline⟩ := ih true
        exact ⟨c :: line, by rw [hline, List.cons_append]⟩
      · obtain ⟨line, hline⟩ := ih false
        exact ⟨(if atStart then List.replicate indent ' ' else []) ++ c :: line, by rw [hline]; simp⟩
  cases style with
  | plain => exact ⟨cs, '\n', rfl, rfl⟩
  | singleQuoted => exact ⟨singleQuotedText indent cs, '\n', rfl, rfl⟩
  | doubleQuoted | folded => exact ⟨'\x22' :: (cs.flatMap escape ++ ['\x22']), '\n', by simp [write], rfl⟩
  | literal =>
    rw [write, blockText]
    split
    next hbreak =>
      obtain rfl | ⟨cs, b, rfl⟩ := cs.eq_nil_or_concat'
      · cases hbreak
      · rw [List.getLast?_append_of_ne_nil _ (List.cons_ne_nil b []), List.getLast?_singleton,
        Option.any_some] at hbreak
        obtain ⟨line, hline⟩ := hindented cs b hbreak true
        exact ⟨blockSigns (cs ++ [b]) ++ '\n' :: line, b, by rw [hline]; simp, hbreak⟩
    next => exact ⟨blockSigns cs ++ '\n' :: indented indent true cs, '\n', rfl, rfl⟩

/-! ## On one line -/

/-- Count of the bytes of some characters. -/
def byteCount (cs : List Char) : Nat := (cs.map Char.utf8Size).sum

theorem byteCount_append (cs ds : List Char) : byteCount (cs ++ ds) = byteCount cs + byteCount ds := by
  rw [byteCount, List.map_append, List.sum_append]
  rfl

theorem byteCount_cons (c : Char) (cs : List Char) : byteCount (c :: cs) = c.utf8Size + byteCount cs := by
  rw [byteCount, List.map_cons, List.sum_cons]
  rfl

theorem byteCount_graphic (h : ∀ c ∈ cs, isGraphic c) : byteCount cs = cs.length := by
  induction cs with
  | nil => rfl
  | cons c cs ih =>
    rw [byteCount_cons, Scalar.utf8Size_of_isGraphic (h c List.mem_cons_self),
      ih fun d hd => h d (List.mem_cons_of_mem c hd), List.length_cons, Nat.add_comm]

theorem byteCount_flatMap_le {f : Char → List Char} {n : Nat} (h : ∀ c ∈ cs, byteCount (f c) ≤ n * c.utf8Size) :
    byteCount (cs.flatMap f) ≤ n * byteCount cs := by
  induction cs with
  | nil => exact Nat.zero_le _
  | cons c cs ih =>
    have := ih fun d hd => h d (List.mem_cons_of_mem c hd)
    have := h c List.mem_cons_self
    rw [List.flatMap_cons, byteCount_append, byteCount_cons, Nat.mul_add]
    omega

theorem utf8ByteSize_eq (s : String) : s.utf8ByteSize = byteCount s.toList := by
  have hlist (cs : List Char) : (String.ofList cs).utf8ByteSize = byteCount cs := by
    rw [String.utf8ByteSize_ofList]
    induction cs with
    | nil => rfl
    | cons c cs ih => rw [String.utf8Len_cons, byteCount_cons, ih, Nat.add_comm]
  rw [← hlist, String.ofList_toList]

theorem length_escape_le (c : Char) : (escape c).length ≤ 4 * c.utf8Size := by
  have hdigits (width n : Nat) : (hexDigits width n).length = width := by
    rw [hexDigits, List.length_map]
    induction width generalizing n with
    | zero => rfl
    | succ width ih => rw [Text.hexDigits, List.length_append, ih]; rfl
  have hpos := c.utf8Size_pos
  rw [escape]
  split
  · rw [List.length_singleton]
    omega
  · split
    · rw [List.length_cons, List.length_singleton]
      omega
    · split
      · rw [List.length_cons, List.length_cons, hdigits]
        omega
      next hbyte =>
        have hsize : 2 ≤ c.utf8Size := by
          rw [← Nat.not_lt, Nat.lt_succ_iff]
          intro hle
          have hone : c.utf8Size = 1 := by omega
          exact hbyte (UInt32.le_trans (Char.utf8Size_eq_one_iff.1 hone) (by decide))
        split
        · rw [List.length_cons, List.length_cons, hdigits]
          omega
        next hplane =>
          have hfour : c.utf8Size = 4 := Char.utf8Size_eq_four_iff.2 (UInt32.not_le.1 hplane)
          rw [List.length_cons, List.length_cons, hdigits]
          omega

theorem byteCount_escape_le (c : Char) : byteCount (escape c) ≤ 4 * c.utf8Size := by
  obtain ⟨hself, -⟩ | hgraphic := Scalar.graphic_of_escaped (Scalar.escaped_escape c)
  · rw [hself, byteCount_cons, show byteCount [] = 0 from rfl]
    omega
  · rw [byteCount_graphic hgraphic]
    exact length_escape_le c

theorem byteCount_doubled_le (c : Char) : byteCount (Scalar.doubled c) ≤ 4 * c.utf8Size := by
  rw [Scalar.doubled]
  split <;> simp only [byteCount_cons, show byteCount [] = 0 from rfl] <;> omega

/-- **A text of one line is written on one line**, where each byte takes four at most. -/
theorem exists_line (h : Holds cs style) (hline : ∀ c ∈ cs, endsLine c = false) :
    ∃ line, style.write 0 cs = line ++ ['\n'] ∧
    (∀ c ∈ line, isBreak c = false) ∧ byteCount line ≤ 4 * byteCount cs + 2 := by
  have hbreak : ∀ c ∈ cs, isBreak c = false := fun c hc => by
    have := hline c hc
    simp only [endsLine, Bool.or_eq_false_iff] at this
    exact this.1.1
  have hquoted {quote : Char} {body : List Char} (hquote : isGraphic quote) (hbody : ∀ c ∈ body, isBreak c = false)
      (hcount : byteCount body ≤ 4 * byteCount cs) :
      (∀ c ∈ quote :: (body ++ [quote]), isBreak c = false) ∧
        byteCount (quote :: (body ++ [quote])) ≤ 4 * byteCount cs + 2 := by
    have hsize := Scalar.utf8Size_of_isGraphic hquote
    refine ⟨fun c hc => ?_, ?_⟩
    · simp only [List.mem_cons, List.mem_append, List.not_mem_nil, or_false] at hc
      obtain rfl | hc | rfl := hc
      · exact Scalar.isBreak_of_isGraphic hquote
      · exact hbody c hc
      · exact Scalar.isBreak_of_isGraphic hquote
    · rw [byteCount_cons, byteCount_append, byteCount_cons, hsize, show byteCount [] = 0 from rfl]
      omega
  cases style with
  | plain => exact ⟨cs, rfl, hbreak, by omega⟩
  | singleQuoted =>
    have hdoubled : ∀ c ∈ cs.flatMap Scalar.doubled, isBreak c = false := fun c hc => by
      obtain ⟨d, hd, hc⟩ := List.mem_flatMap.1 hc
      rw [Scalar.doubled] at hc
      have : c = d := by split at hc <;> simpa using hc
      exact this ▸ hbreak d hd
    refine ⟨'\x27' :: (cs.flatMap Scalar.doubled ++ ['\x27']), ?_,
      hquoted rfl hdoubled (byteCount_flatMap_le fun c _ => byteCount_doubled_le c)⟩
    rw [write, Scalar.singleQuotedText_eq, indented_of_not_isBreak 0 hdoubled]
    simp
  | doubleQuoted =>
    refine ⟨'\x22' :: (cs.flatMap escape ++ ['\x22']), by simp [write],
      hquoted rfl (fun c hc => ?_) (byteCount_flatMap_le fun c _ => byteCount_escape_le c)⟩
    obtain ⟨d, hd, hc⟩ := List.mem_flatMap.1 hc
    exact Scalar.not_isBreak_of_escaped (Scalar.escaped_escape d) c hc
  | literal => exact absurd (hbreak '\n' h.2) (by decide)
  | folded => exact h.elim

end Style

end BoundSql.Yaml
