import BoundSql.Number.Layout
import BoundSql.Proofs.Number.Numeral
import BoundSql.Proofs.Number.Shortest

/-!
# Texts of finite doubles are read back

With or without an exponent, the text of a decimal is a numeral for this decimal (`Numeral.ofUnsigned?_decimalText`).
Since the text of a double is that of a decimal that rounds to it, the text is read back as the double
(`Binary64.ofText?_text`).
-/

namespace BoundSql

open Binary64 (ofDecimal ofDecimal_mul_pow Representable)

/-! ## Numerals with their parts -/

namespace Numeral

variable (negative : Bool) {whole fraction rest : List Char}

/-- Whether digits end in front of a text. -/
def Stops (rest : List Char) : Prop := ∀ c ∈ rest.head?, !c.isDigit

theorem takeWhile_digits (h : whole.all Char.isDigit) (hrest : Stops rest) :
    (whole ++ rest).takeWhile Char.isDigit = whole ∧ (whole ++ rest).dropWhile Char.isDigit = rest := by
  rw [List.all_eq_true] at h
  cases rest with
  | nil =>
    rw [List.takeWhile_append_of_pos h, List.dropWhile_append_of_pos h]
    exact ⟨List.append_nil whole, rfl⟩
  | cons c cs =>
    have hc : c.isDigit = false := by simpa using hrest c rfl
    exact ⟨Text.takeWhile_append_cons h hc, Text.dropWhile_append_cons h hc⟩

/-- What comes of a numeral's digits and of what stands behind them. -/
def ending? (negative : Bool) (digits : List Char) (places : Nat) : List Char → Option Numeral
  | [] => some ⟨negative, digits, -places⟩
  | c :: rest =>
    if c = 'e' || c = 'E' then (exponent? rest).map fun e => ⟨negative, digits, e - places⟩ else none

theorem ofUnsigned?_whole (hwhole : whole.all Char.isDigit) (hne : whole ≠ []) (hrest : Stops rest)
    (hpoint : rest.head? ≠ some '.') : ofUnsigned? negative (whole ++ rest) = ending? negative whole 0 rest := by
  obtain ⟨htake, hdrop⟩ := takeWhile_digits hwhole hrest
  rw [ofUnsigned?, htake, hdrop]
  cases rest with
  | nil => simp [hne, ending?]
  | cons c cs =>
    have hc : c ≠ '.' := fun h => hpoint (by rw [h]; rfl)
    simp [hne, ending?, hc]

theorem ofUnsigned?_point (hwhole : whole.all Char.isDigit) (hne : whole ++ fraction ≠ [])
    (hfraction : fraction.all Char.isDigit) (hrest : Stops rest) :
    ofUnsigned? negative (whole ++ '.' :: (fraction ++ rest)) =
      ending? negative (whole ++ fraction) fraction.length rest := by
  have hstops : Stops ('.' :: (fraction ++ rest)) := by
    intro c hc
    cases hc
    rfl
  obtain ⟨htake, hdrop⟩ := takeWhile_digits hwhole hstops
  obtain ⟨htake', hdrop'⟩ := takeWhile_digits hfraction hrest
  rw [ofUnsigned?, htake, hdrop]
  rw [ne_eq, List.append_eq_nil_iff] at hne
  simp only [htake', hdrop']
  cases rest <;> simp [hne, ending?]

/-- A digit or a point is no sign. -/
theorem splitSign_of_head {c : Char} (hc : c.isDigit ∨ c = '.') (cs : List Char) :
    splitSign (c :: cs) = (false, c :: cs) := by
  rw [splitSign.eq_def]
  split
  next h =>
    cases h
    exact absurd hc (by decide)
  next h =>
    cases h
    exact absurd hc (by decide)
  next => rfl

/-- Exponents as they are written. -/
theorem exponent?_digits {digits : List Char} (hne : digits ≠ []) (hall : digits.all Char.isDigit) :
    exponent? digits = some (Text.decimalValue digits : Int) ∧
      exponent? ('+' :: digits) = some (Text.decimalValue digits : Int) ∧
      exponent? ('-' :: digits) = some (-(Text.decimalValue digits : Int)) := by
  have hsign : splitSign digits = (false, digits) := by
    obtain ⟨c, cs, rfl⟩ := List.exists_cons_of_ne_nil hne
    exact splitSign_of_head (Or.inl (List.all_eq_true.1 hall c List.mem_cons_self)) cs
  have htest : (digits.isEmpty || !digits.all Char.isDigit) = false := by
    rw [hall, List.isEmpty_eq_false_iff.2 hne]
    rfl
  refine ⟨?_, ?_, ?_⟩ <;> rw [exponent?]
  · simp only [hsign, htest, Bool.false_eq_true, if_false]
  · simp only [splitSign, htest, Bool.false_eq_true, if_false]
  · simp only [splitSign, htest, Bool.false_eq_true, if_false, if_true]

theorem stops_nil : Stops [] := fun _ h => nomatch h

/-- Digits alone. -/
theorem map_ofUnsigned?_whole (hwhole : whole.all Char.isDigit) (hne : whole ≠ []) :
    (ofUnsigned? negative whole).map toBinary64 = some (ofDecimal negative (Text.decimalValue whole) 0) := by
  have h := ofUnsigned?_whole negative hwhole hne stops_nil (by simp)
  rw [List.append_nil] at h
  rw [h]
  exact congrArg some (toBinary64_eq ⟨negative, whole, 0⟩ hwhole)

/-- Digits with a point among them. -/
theorem map_ofUnsigned?_point (hwhole : whole.all Char.isDigit) (hne : whole ≠ [])
    (hfraction : fraction.all Char.isDigit) :
    (ofUnsigned? negative (whole ++ '.' :: fraction)).map toBinary64 =
      some (ofDecimal negative (Text.decimalValue (whole ++ fraction)) (-fraction.length)) := by
  have h := ofUnsigned?_point negative hwhole (List.append_ne_nil_of_left_ne_nil hne _) hfraction stops_nil
  rw [List.append_nil] at h
  rw [h]
  refine congrArg some (toBinary64_eq ⟨negative, whole ++ fraction, -fraction.length⟩ ?_)
  rw [List.all_append, hwhole, hfraction]
  rfl

/-- Digits, the first of which may have a point behind it, and an exponent. -/
theorem map_ofUnsigned?_exponent {c : Char} {exponent : List Char} {e : Int} (hc : c.isDigit)
    (hfraction : fraction.all Char.isDigit) (he : exponent? exponent = some e) :
    (ofUnsigned? negative (c :: (if fraction = [] then [] else '.' :: fraction) ++ 'e' :: exponent)).map toBinary64 =
      some (ofDecimal negative (Text.decimalValue (c :: fraction)) (e - fraction.length)) := by
  have hwhole : [c].all Char.isDigit := by rw [List.all_cons, hc]; rfl
  have hstops : Stops ('e' :: exponent) := by
    intro x hx
    cases hx
    rfl
  have hdigits : (c :: fraction).all Char.isDigit := by rw [List.all_cons, hc, hfraction]; rfl
  have hresult : (ending? negative (c :: fraction) fraction.length ('e' :: exponent)).map toBinary64 =
      some (ofDecimal negative (Text.decimalValue (c :: fraction)) (e - fraction.length)) := by
    rw [ending?, if_pos (by decide), he]
    exact congrArg some (toBinary64_eq ⟨negative, c :: fraction, e - fraction.length⟩ hdigits)
  rw [← hresult]
  split
  next hnone =>
    subst hnone
    exact congrArg _ (ofUnsigned?_whole negative hwhole (List.cons_ne_nil c []) hstops (by simp))
  next => exact congrArg _ (ofUnsigned?_point negative hwhole (List.cons_ne_nil c fraction) hfraction hstops)

end Numeral

/-! ## Texts of decimals -/

namespace Layout

open Numeral

/-- A layout whose numbers are numerals. -/
structure IsNumeric (l : Layout) : Prop where
  wholeMark : l.wholeMark = "" ∨ l.wholeMark = ".0"
  upMark : l.upMark = "e" ∨ l.upMark = "e+"

variable {l : Layout}

theorem ofDecimal_congr (negative : Bool) {digits digits' : Nat} {e e' : Int} (hdigits : digits = digits')
    (he : e = e') :
    some (ofDecimal negative digits e) = some (ofDecimal negative digits' e') := by
  rw [hdigits, he]

/-- **The text of a decimal without an exponent is a numeral for it.** -/
theorem map_ofUnsigned?_positionalText (hl : l.IsNumeric) (negative : Bool) (d : Decimal) :
    (ofUnsigned? negative (positionalText l.wholeMark d).toList).map toBinary64 =
      some (ofDecimal negative d.digits d.exponent) := by
  have hne := Text.repr_toList_ne_nil d.digits
  have hall : d.digits.repr.toList.all Char.isDigit := List.all_eq_true.2 (Text.all_isDigit_repr d.digits)
  have hvalue := Text.decimalValue_repr d.digits
  have hzeros (k : Nat) : (List.replicate k '0').all Char.isDigit := by
    rw [List.all_replicate]
    split <;> rfl
  rw [positionalText]
  generalize d.digits.repr.toList = digits at hne hall hvalue ⊢
  by_cases hwhole : 0 ≤ d.exponent
  · have hdigits : (digits ++ List.replicate d.exponent.toNat '0').all Char.isDigit := by
      rw [List.all_append, hall, hzeros]
      rfl
    have hdigits0 : digits ++ List.replicate d.exponent.toNat '0' ≠ [] := by simp [hne]
    rw [if_pos hwhole, String.toList_append, String.toList_ofList]
    obtain hmark | hmark := hl.wholeMark <;> rw [hmark]
    · rw [show "".toList = [] from rfl, List.append_nil, map_ofUnsigned?_whole negative hdigits hdigits0,
        Text.decimalValue_append_zeros, hvalue, ofDecimal_mul_pow]
      exact ofDecimal_congr negative rfl (by omega)
    · rw [show ".0".toList = '.' :: List.replicate 1 '0' from rfl,
        map_ofUnsigned?_point negative hdigits hdigits0 (hzeros 1), Text.decimalValue_append_zeros,
        Text.decimalValue_append_zeros,
        hvalue, ofDecimal_mul_pow, ofDecimal_mul_pow, List.length_replicate]
      exact ofDecimal_congr negative rfl (by omega)
  · rw [if_neg hwhole]
    by_cases hplaces : (-d.exponent).toNat < digits.length
    · have hsplit := List.take_append_drop (digits.length - (-d.exponent).toNat) digits
      have hparts := hall
      rw [← hsplit, List.all_append, Bool.and_eq_true] at hparts
      have htake : digits.take (digits.length - (-d.exponent).toNat) ≠ [] := by
        intro h
        have := congrArg List.length h
        rw [List.length_take, List.length_nil] at this
        omega
      simp only [if_pos hplaces, String.toList_ofList]
      rw [map_ofUnsigned?_point negative hparts.1 htake hparts.2, hsplit, hvalue, List.length_drop]
      exact ofDecimal_congr negative rfl (by omega)
    · have hfraction : (List.replicate ((-d.exponent).toNat - digits.length) '0' ++ digits).all Char.isDigit := by
        rw [List.all_append, hall, hzeros]
        rfl
      simp only [if_neg hplaces, String.toList_append, String.toList_ofList]
      rw [show "0.".toList = List.replicate 1 '0' ++ ['.'] from rfl, List.append_assoc, List.singleton_append,
        map_ofUnsigned?_point negative (hzeros 1) (by decide) hfraction, Text.decimalValue_zeros_append,
        Text.decimalValue_zeros_append, hvalue, List.length_append, List.length_replicate]
      exact ofDecimal_congr negative rfl (by omega)

/-- The mark in front of an exponent, and the exponent. -/
theorem exponent?_mark (hl : l.IsNumeric) (lead : Int) : ∃ exponent, exponent? exponent = some lead ∧
    (if lead < 0 then "e-" else l.upMark).toList ++ lead.natAbs.repr.toList = 'e' :: exponent := by
  have hne := Text.repr_toList_ne_nil lead.natAbs
  have hall : lead.natAbs.repr.toList.all Char.isDigit := List.all_eq_true.2 (Text.all_isDigit_repr lead.natAbs)
  obtain ⟨hplain, hplus, hminus⟩ := exponent?_digits hne hall
  rw [Text.decimalValue_repr] at hplain hplus hminus
  by_cases hlead : lead < 0
  · refine ⟨'-' :: lead.natAbs.repr.toList, ?_, by rw [if_pos hlead]; rfl⟩
    rw [hminus]
    exact congrArg some (by omega)
  · have habs : some ((lead.natAbs : Nat) : Int) = some lead := congrArg some (by omega)
    rw [if_neg hlead]
    obtain hmark | hmark := hl.upMark <;> rw [hmark]
    · exact ⟨lead.natAbs.repr.toList, hplain.trans habs, rfl⟩
    · exact ⟨'+' :: lead.natAbs.repr.toList, hplus.trans habs, rfl⟩

/-- **The text of a decimal with an exponent is a numeral for it.** -/
theorem map_ofUnsigned?_scientificText (hl : l.IsNumeric) (negative : Bool) (d : Decimal) :
    (ofUnsigned? negative (scientificText l.upMark d).toList).map toBinary64 =
      some (ofDecimal negative d.digits d.exponent) := by
  have hne := Text.repr_toList_ne_nil d.digits
  have hall : d.digits.repr.toList.all Char.isDigit := List.all_eq_true.2 (Text.all_isDigit_repr d.digits)
  have hvalue := Text.decimalValue_repr d.digits
  simp only [scientificText, String.toList_append, String.toList_ofList]
  generalize d.digits.repr.toList = digits at hne hall hvalue ⊢
  obtain ⟨c, fraction, rfl⟩ := List.exists_cons_of_ne_nil hne
  rw [List.all_cons, Bool.and_eq_true] at hall
  obtain ⟨exponent, he, hmark⟩ := exponent?_mark hl (d.exponent + ((c :: fraction).length - 1 : Nat))
  have hshape : (if (c :: fraction).length = 1 then [] else '.' :: (c :: fraction).drop 1) =
      if fraction = [] then [] else '.' :: fraction := by
    cases fraction <;> rfl
  rw [List.append_assoc, hmark, hshape]
  refine (map_ofUnsigned?_exponent negative hall.1 hall.2 he).trans ?_
  rw [hvalue, List.length_cons]
  exact ofDecimal_congr negative rfl (by omega)

/-- **The text of a decimal is a numeral for it.** -/
theorem map_ofUnsigned?_decimalText (hl : l.IsNumeric) (negative : Bool) (d : Decimal) :
    (ofUnsigned? negative (l.decimalText d).toList).map toBinary64 = some (ofDecimal negative d.digits d.exponent) := by
  rw [decimalText]
  split
  · exact map_ofUnsigned?_positionalText hl negative d
  · exact map_ofUnsigned?_scientificText hl negative d

/-- Digits, and the signs that stand among them. -/
def isNumeralChar (c : Char) : Bool := c.isDigit || c = '.' || c = 'e' || c = '+' || c = '-'

theorem isNumeralChar_of_isDigit {c : Char} (h : c.isDigit) : isNumeralChar c := by
  rw [isNumeralChar, h]
  rfl

/-- A text that begins with a digit and has only digits and signs. -/
structure IsNumeralText (cs : List Char) : Prop where
  head : ∃ c ∈ cs.head?, c.isDigit
  all : ∀ c ∈ cs, isNumeralChar c

theorem IsNumeralText.of_digits {digits : List Char} (hne : digits ≠ []) (h : digits.all Char.isDigit) :
    IsNumeralText digits := by
  rw [List.all_eq_true] at h
  obtain ⟨c, cs, rfl⟩ := List.exists_cons_of_ne_nil hne
  exact ⟨⟨c, rfl, h c List.mem_cons_self⟩, fun x hx => isNumeralChar_of_isDigit (h x hx)⟩

theorem IsNumeralText.append {cs ds : List Char} (h : IsNumeralText cs) (hds : ∀ c ∈ ds, isNumeralChar c) :
    IsNumeralText (cs ++ ds) := by
  obtain ⟨⟨c, hhead, hc⟩, hall⟩ := h
  obtain ⟨cs, rfl⟩ := List.head?_eq_some_iff.1 hhead
  exact ⟨⟨c, rfl, hc⟩, fun x hx => (List.mem_append.1 hx).elim (hall x) (hds x)⟩

theorem IsNumeralText.take {cs : List Char} (h : IsNumeralText cs) {n : Nat} (hn : n ≠ 0) :
    IsNumeralText (cs.take n) := by
  refine ⟨?_, fun c hc => h.all c (List.mem_of_mem_take hc)⟩
  rw [List.head?_take, if_neg hn]
  exact h.head

theorem isNumeralChar_wholeMark (hl : l.IsNumeric) : ∀ c ∈ l.wholeMark.toList, isNumeralChar c :=
  List.all_eq_true.1 (by obtain h | h := hl.wholeMark <;> rw [h] <;> decide)

theorem isNumeralText_decimalText (hl : l.IsNumeric) (d : Decimal) : IsNumeralText (l.decimalText d).toList := by
  have hrepr (n : Nat) : IsNumeralText n.repr.toList :=
    .of_digits (Text.repr_toList_ne_nil n) (List.all_eq_true.2 (Text.all_isDigit_repr n))
  have hdigits := hrepr d.digits
  have hzeros (k : Nat) : ∀ c ∈ List.replicate k '0', isNumeralChar c := fun c hc => by
    rw [List.eq_of_mem_replicate hc]
    rfl
  have hup : ∀ c ∈ l.upMark.toList, isNumeralChar c :=
    List.all_eq_true.1 (by obtain h | h := hl.upMark <;> rw [h] <;> decide)
  have hpoint {cs : List Char} (h : ∀ c ∈ cs, c ∈ d.digits.repr.toList) : ∀ c ∈ '.' :: cs, isNumeralChar c := by
    intro c hc
    obtain rfl | hc := List.mem_cons.1 hc
    · rfl
    · exact hdigits.all c (h c hc)
  rw [decimalText]
  split
  · rw [positionalText]
    by_cases hwhole : 0 ≤ d.exponent
    · rw [if_pos hwhole, String.toList_append, String.toList_ofList]
      exact (hdigits.append (hzeros _)).append (isNumeralChar_wholeMark hl)
    · rw [if_neg hwhole]
      by_cases hplaces : (-d.exponent).toNat < d.digits.repr.toList.length
      · simp only [if_pos hplaces, String.toList_ofList]
        exact (hdigits.take (by omega)).append (hpoint fun c hc => List.mem_of_mem_drop hc)
      · simp only [if_neg hplaces, String.toList_append, String.toList_ofList]
        have hzero : IsNumeralText "0.".toList := ⟨⟨'0', rfl, rfl⟩, List.all_eq_true.1 (by decide)⟩
        exact hzero.append fun c hc => (List.mem_append.1 hc).elim (hzeros _ c) (hdigits.all c)
  · simp only [scientificText, String.toList_append, String.toList_ofList]
    refine (((hdigits.take Nat.one_ne_zero).append ?_).append ?_).append (hrepr _).all
    · split
      · exact fun c hc => nomatch hc
      · exact hpoint fun c hc => List.mem_of_mem_drop hc
    · split
      · exact List.all_eq_true.1 (by decide)
      · exact hup

/-! ## Texts of doubles -/

/-- Text of a magnitude. -/
def magnitudeText (l : Layout) (units : Nat) : String :=
  if units = 0 then "0" ++ l.wholeMark else l.decimalText (Decimal.shortest l.tie units)

theorem text_finite (l : Layout) (negative : Bool) (units : Nat) (h : Representable units) :
    l.text (.finite negative units h) = (if negative then "-" else "") ++ l.magnitudeText units := rfl

theorem isNumeralText_magnitudeText (hl : l.IsNumeric) (units : Nat) :
    IsNumeralText (l.magnitudeText units).toList := by
  rw [magnitudeText]
  split
  · have hzero : IsNumeralText "0".toList := ⟨⟨'0', rfl, rfl⟩, List.all_eq_true.1 (by decide)⟩
    rw [String.toList_append]
    exact hzero.append (isNumeralChar_wholeMark hl)
  · exact isNumeralText_decimalText hl _

theorem map_ofUnsigned?_magnitudeText (hl : l.IsNumeric) (negative : Bool) {units : Nat} (h : Representable units) :
    (ofUnsigned? negative (l.magnitudeText units).toList).map toBinary64 = some (.finite negative units h) := by
  rw [magnitudeText]
  by_cases hzero : units = 0
  · subst hzero
    have htext : "0" ++ l.wholeMark = positionalText l.wholeMark ⟨0, 0⟩ := rfl
    rw [if_pos rfl, htext, map_ofUnsigned?_positionalText hl, ofDecimal, Binary64.ofRatio, Nat.zero_mul, Nat.zero_mul]
    exact congrArg some (Binary64.ofUnits_eq (Binary64.roundUnits_eq_zero (by decide)) h)
  · rw [if_neg hzero, map_ofUnsigned?_decimalText hl, Decimal.ofDecimal_shortest negative l.tie
    (Nat.pos_of_ne_zero hzero) h]

end Layout

/-- A text that begins with a digit or a point is no word for an infinity or a missing number. -/
theorem Binary64.ofText?_of_head {cs body : List Char} {negative : Bool} {c : Char}
    (hsign : Numeral.splitSign cs = (negative, c :: body)) (hc : c.isDigit ∨ c = '.') :
    ofText? cs = (Numeral.ofUnsigned? negative (c :: body)).map Numeral.toBinary64 := by
  have hlower : c.toLower = c := by
    rcases hc with hc | rfl
    · simp only [Char.isDigit, Bool.and_eq_true, decide_eq_true_eq] at hc
      delta Char.toLower
      rw [dif_neg]
      exact fun h => absurd (UInt32.le_trans h.1 hc.2) (by decide)
    · rfl
  have hword {w : Char} {ws : List Char} (hw : ¬(w.isDigit ∨ w = '.')) :
      String.ofList ((c :: body).map Char.toLower) ≠ String.ofList (w :: ws) := by
    intro h
    have hlist := congrArg String.toList h
    rw [String.toList_ofList, String.toList_ofList, List.map_cons, hlower] at hlist
    exact hw ((List.cons.inj hlist).1 ▸ hc)
  have hinf : String.ofList ((c :: body).map Char.toLower) ≠ "inf" := hword (w := 'i') (by decide)
  have hinfinity : String.ofList ((c :: body).map Char.toLower) ≠ "infinity" := hword (w := 'i') (by decide)
  have hnan : String.ofList ((c :: body).map Char.toLower) ≠ "nan" := hword (w := 'n') (by decide)
  rw [ofText?, hsign]
  simp only [hinf, hinfinity, hnan, decide_false, Bool.or_self, Bool.false_eq_true, if_false]

open Layout in
/-- **The text of a finite double is read back as the double**, with the sign of a zero. -/
theorem Binary64.ofText?_text {l : Layout} (hl : l.IsNumeric) {x : Binary64} (hx : x.isFinite) :
    ofText? (l.text x).toList = some x := by
  cases x with
  | finite negative units h =>
    have hread := map_ofUnsigned?_magnitudeText hl negative h
    obtain ⟨c, hhead, hc⟩ := (isNumeralText_magnitudeText hl units).head
    obtain ⟨cs, hcs⟩ := List.head?_eq_some_iff.1 hhead
    rw [hcs] at hread
    have hsign : Numeral.splitSign (l.text (.finite negative units h)).toList = (negative, c :: cs) := by
      rw [text_finite, String.toList_append, hcs]
      cases negative with
      | true => rfl
      | false => exact Numeral.splitSign_of_head (Or.inl hc) cs
    exact (ofText?_of_head hsign (Or.inl hc)).trans hread
  | nan => cases hx
  | infinity => cases hx

end BoundSql
