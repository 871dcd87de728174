import BoundSql.Proofs.Json.Lexical
import BoundSql.Proofs.Number.Layout
import BoundSql.Yaml.Node.Printer

/-!
# Words are read back

The plain word of a whole number, of a truth value or of a double stands for just that (`Word.ofText_ofInt`,
`Word.ofText_ofFloat`), and what would stand for something else than its text is called ambiguous
(`Word.ofText_of_not_ambiguous`).
-/

namespace BoundSql.Yaml

open Layout (IsNumeralText isNumeralChar)

theorem isNumeric_layout : layout.IsNumeric := ⟨.inr rfl, .inl rfl⟩

namespace Word

/-! ## Words that begin like numbers -/

/-- Whether a text begins with a digit, or with a minus and a digit. -/
def leadsWithDigit (cs : List Char) : Bool := (if cs.head? = some '-' then cs.drop 1 else cs).head?.any Char.isDigit

theorem leadsWithDigit_of_isNumeralText {cs : List Char} (h : IsNumeralText cs) (negative : Bool) :
    leadsWithDigit ((if negative then ['-'] else []) ++ cs) := by
  obtain ⟨c, hhead, hc⟩ := h.head
  obtain ⟨cs, rfl⟩ := List.head?_eq_some_iff.1 hhead
  cases negative with
  | true => simpa [leadsWithDigit] using hc
  | false =>
    have hminus : c ≠ '-' := by rintro rfl; cases hc
    simpa [leadsWithDigit, hminus] using hc

/-- Words that begin otherwise are other texts. -/
theorem not_contains {words : List String} (hwords : words.all fun w => !leadsWithDigit w.toList) {s : String}
    (hs : leadsWithDigit s.toList) : words.contains s = false := by
  rw [← Bool.not_eq_true, List.contains_iff_mem]
  intro hmem
  have := List.all_eq_true.1 hwords s hmem
  rw [hs] at this
  cases this

variable {s : String}

theorem isNull_eq_false (hs : leadsWithDigit s.toList) : isNull s = false := not_contains (by decide) hs

theorem bool?_eq_none (hs : leadsWithDigit s.toList) : bool? s = none := by
  rw [bool?, not_contains (by decide) hs, not_contains (by decide) hs]
  rfl

theorem float?_eq (hs : leadsWithDigit s.toList) : float? s = (Binary64.ofText? s.toList).filter Binary64.isFinite := by
  have hplus : s.toList.head? ≠ some '+' := by
    intro h
    obtain ⟨cs, hcs⟩ := List.head?_eq_some_iff.1 h
    rw [hcs] at hs
    cases hs
  have hinfinity : [".inf", ".Inf", ".INF"].contains s = false := not_contains (by decide) hs
  have hnegative : ["-.inf", "-.Inf", "-.INF"].contains s = false := not_contains (by decide) hs
  have hnan : [".nan", ".NaN", ".NAN"].contains s = false := not_contains (by decide) hs
  rw [float?]
  simp only [hplus, if_false, decide_false, Bool.false_and, Bool.false_eq_true, String.ofList_toList, hinfinity,
    hnegative, hnan]

/-! ## Whole numbers -/

theorem hexValue?_digit {c : Char} (h : c.isDigit) : Text.hexValue? c = some (Text.digitValue c) := by
  simp only [Char.isDigit, Bool.and_eq_true, decide_eq_true_eq] at h
  exact if_pos h

theorem not_isDigit_of_hexValue? {c : Char} {d : Nat} (h : Text.hexValue? c = some d) (hc : c.isDigit = false) :
    10 ≤ d := by
  have hdigit : ¬('0' ≤ c ∧ c ≤ '9') := by
    intro hrange
    have : c.isDigit := by
      simp only [Char.isDigit, Bool.and_eq_true, decide_eq_true_eq]
      exact hrange
    rw [hc] at this
    cases this
  rw [Text.hexValue?, if_neg hdigit] at h
  split at h
  · cases h
    omega
  · split at h
    · cases h
      omega
    · cases h

/-- Digits denote their decimal value. -/
theorem digitsOfBase?_ten {cs : List Char} (hne : cs ≠ []) (hall : cs.all Char.isDigit) :
    digitsOfBase? 10 cs = some (Text.decimalValue cs) := by
  have hfrom (cs : List Char) (hall : cs.all Char.isDigit) (n : Nat) :
      cs.foldlM (fun n c => (Text.hexValue? c).bind fun d => if d < 10 then some (10 * n + d) else none) n =
        some (cs.foldl (fun n c => 10 * n + Text.digitValue c) n) := by
    induction cs generalizing n with
    | nil => rfl
    | cons c cs ih =>
      rw [List.all_cons, Bool.and_eq_true] at hall
      rw [List.foldlM_cons, hexValue?_digit hall.1, Option.bind_some, if_pos (Text.digitValue_lt hall.1)]
      exact ih hall.2 _
  rw [digitsOfBase?, if_neg (by simpa using hne)]
  exact hfrom cs hall 0

/-- What has other signs denotes no whole number. -/
theorem digitsOfBase?_ten_eq_none {cs : List Char} (h : ∃ c ∈ cs, c.isDigit = false) : digitsOfBase? 10 cs = none := by
  have hfrom (cs : List Char) (h : ∃ c ∈ cs, c.isDigit = false) (n : Nat) :
      cs.foldlM (fun n c => (Text.hexValue? c).bind fun d => if d < 10 then some (10 * n + d) else none) n = none := by
    induction cs generalizing n with
    | nil => obtain ⟨c, hc, -⟩ := h; cases hc
    | cons c cs ih =>
      rw [List.foldlM_cons]
      cases hvalue : Text.hexValue? c with
      | none => rfl
      | some d =>
        rw [Option.bind_some]
        by_cases hc : c.isDigit
        · split
          · refine ih ?_ _
            obtain ⟨x, hx, hdigit⟩ := h
            obtain rfl | hx := List.mem_cons.1 hx
            · rw [hc] at hdigit
              cases hdigit
            · exact ⟨x, hx, hdigit⟩
          · rfl
        · rw [if_neg (Nat.not_lt.2 (not_isDigit_of_hexValue? hvalue (by simpa using hc)))]
          rfl
  rw [digitsOfBase?]
  split
  · rfl
  · exact hfrom cs h 0

theorem magnitude?_repr (n : Nat) : magnitude? n.repr.toList = some n := by
  have hzero (cs : List Char) (h : n.repr.toList = '0' :: cs) : cs = [] := by
    have hhead : (Nat.toDigits 10 n).head? = some '0' := by rw [← Nat.toList_repr, h]; rfl
    obtain rfl := Json.head?_toDigits hhead
    exact (List.cons.inj h).2.symm
  have hsigned : isSigned n.repr.toList = false := by
    obtain ⟨c, cs, hcs⟩ := List.exists_cons_of_ne_nil (Text.repr_toList_ne_nil n)
    have hc : c.isDigit := Text.all_isDigit_repr n c (by rw [hcs]; exact List.mem_cons_self)
    rw [hcs, isSigned, Bool.or_eq_false_iff]
    constructor <;> refine decide_eq_false ?_ <;> rintro h <;> cases h <;> cases hc
  have hleads : leadsWithZero n.repr.toList = false := by
    rw [leadsWithZero, hsigned]
    rw [Bool.and_eq_false_iff, Bool.and_eq_false_iff]
    by_cases hhead : n.repr.toList.head? = some '0'
    · obtain ⟨cs, hcs⟩ := List.head?_eq_some_iff.1 hhead
      have := hzero cs hcs
      subst this
      left; left
      rw [hcs]
      rfl
    · left; right
      exact decide_eq_false hhead
  have hvalue := digitsOfBase?_ten (Text.repr_toList_ne_nil n) (List.all_eq_true.2 (Text.all_isDigit_repr n))
  rw [Text.decimalValue_repr] at hvalue
  unfold magnitude?
  rw [hleads, if_neg Bool.false_ne_true]
  split
  next letter digits h => cases hzero _ h
  next => exact hvalue

theorem magnitude?_eq_none {cs : List Char} (hall : ∀ c ∈ cs, isNumeralChar c) (h : ∃ c ∈ cs, c.isDigit = false) :
    magnitude? cs = none := by
  unfold magnitude?
  split
  · rfl
  · split
    next letter digits _ =>
      have hletter := hall letter (List.mem_cons_of_mem _ List.mem_cons_self)
      have hbase : base? letter = none := by
        unfold base?
        split
        · cases hletter
        · cases hletter
        · cases hletter
        · rfl
      rw [hbase]
    next => exact digitsOfBase?_ten_eq_none h

theorem integer?_minus (digits : List Char) :
    integer? ('-' :: digits) = (magnitude? digits).bind fun n =>
      if n ≤ wideSize / 2 then some (-(n : Int)) else none := rfl

theorem integer?_digit {c : Char} (hc : c.isDigit) (cs : List Char) :
    integer? (c :: cs) = (magnitude? (c :: cs)).bind fun n => if n < wideSize then some (n : Int) else none := by
  have hplus : (c :: cs).head? ≠ some '+' := by
    intro h
    cases h
    cases hc
  unfold integer?
  split
  next h => cases h; cases hc
  next => rw [if_neg hplus]

/-- What a text that begins like a number stands for. -/
theorem ofText_of_leadsWithDigit (hs : leadsWithDigit s.toList) : ofText s =
    match integer? s.toList, float? s with
    | some n, _ => .integer n
    | none, some x => if leadsWithZero s.toList then .text else .float x
    | none, none => .text := by
  rw [ofText, isNull_eq_false hs, bool?_eq_none hs]
  cases integer? s.toList <;> cases float? s <;> rfl

/-- **The word of a whole number stands for it.** -/
theorem ofText_toString {n : Int} (h : inInt64 n) : ofText (toString n) = .integer n := by
  have hbounds : -2 ^ 63 ≤ n ∧ n < 2 ^ 63 := by
    simp only [inInt64, Bool.and_eq_true, decide_eq_true_eq] at h
    exact ⟨h.1, Int.lt_of_le_of_lt h.2 (by decide)⟩
  have hrepr (n : Nat) : IsNumeralText n.repr.toList :=
    .of_digits (Text.repr_toList_ne_nil n) (List.all_eq_true.2 (Text.all_isDigit_repr n))
  have hread : leadsWithDigit (toString n).toList ∧ integer? (toString n).toList = some n := by
    cases n with
    | ofNat n =>
      have hdigits : (toString (Int.ofNat n)).toList = n.repr.toList := rfl
      have hlt : n < wideSize := by
        have : (n : Int) < 2 ^ 63 := hbounds.2
        simp only [wideSize, UInt64.size]
        omega
      rw [hdigits]
      refine ⟨leadsWithDigit_of_isNumeralText (hrepr n) false, ?_⟩
      obtain ⟨c, hhead, hc⟩ := (hrepr n).head
      obtain ⟨cs, hcs⟩ := List.head?_eq_some_iff.1 hhead
      rw [hcs, integer?_digit hc, ← hcs, magnitude?_repr, Option.bind_some, if_pos hlt]
      rfl
    | negSucc n =>
      have hdigits : (toString (Int.negSucc n)).toList = '-' :: (n + 1).repr.toList := by simp [toString, Int.repr]
      have hle : n + 1 ≤ wideSize / 2 := by
        simp only [wideSize, UInt64.size]
        omega
      rw [hdigits]
      refine ⟨leadsWithDigit_of_isNumeralText (hrepr (n + 1)) true, ?_⟩
      rw [integer?_minus, magnitude?_repr, Option.bind_some, if_pos hle]
      rfl
  rw [ofText_of_leadsWithDigit hread.1, hread.2]

/-! ## Doubles -/

/-- The text of a double has a sign that no whole number has. -/
theorem exists_sign_magnitudeText (units : Nat) : ∃ c ∈ (layout.magnitudeText units).toList, c.isDigit = false := by
  have hmark : '.' ∈ layout.wholeMark.toList := by decide
  have hpoint : Char.isDigit '.' = false := rfl
  rw [Layout.magnitudeText]
  split
  · exact ⟨'.', by rw [String.toList_append]; exact List.mem_append_right _ hmark, hpoint⟩
  · rw [Layout.decimalText]
    generalize Decimal.shortest layout.tie units = d
    split
    · refine ⟨'.', ?_, hpoint⟩
      rw [Layout.positionalText]
      by_cases hwhole : 0 ≤ d.exponent
      · rw [if_pos hwhole, String.toList_append]
        exact List.mem_append_right _ hmark
      · rw [if_neg hwhole]
        by_cases hplaces : (-d.exponent).toNat < d.digits.repr.toList.length
        · simp only [if_pos hplaces, String.toList_ofList]
          exact List.mem_append_right _ List.mem_cons_self
        · simp only [if_neg hplaces, String.toList_append]
          exact List.mem_append_left _ (by decide)
    · refine ⟨'e', ?_, rfl⟩
      simp only [Layout.scientificText, String.toList_append]
      refine List.mem_append_left _ (List.mem_append_right _ ?_)
      split
      · exact List.mem_cons_self
      · exact List.mem_cons_self

theorem leadsWithZero_eq_false {cs : List Char} (h : IsNumeralText cs) (hsign : ∃ c ∈ cs, c.isDigit = false)
    (negative : Bool) : leadsWithZero ((if negative then ['-'] else []) ++ cs) = false := by
  obtain ⟨c, hc, hdigit⟩ := hsign
  have hall : cs.all Char.isDigit = false := List.all_eq_false.2 ⟨c, hc, by simp [hdigit]⟩
  cases negative with
  | true => simp [leadsWithZero, isSigned, hall]
  | false =>
    have hsigned : isSigned cs = false := by
      obtain ⟨d, hhead, hd⟩ := h.head
      obtain ⟨ds, rfl⟩ := List.head?_eq_some_iff.1 hhead
      rw [isSigned, Bool.or_eq_false_iff]
      constructor <;> refine decide_eq_false ?_ <;> rintro h <;> cases h <;> cases hd
    simp [leadsWithZero, hsigned, hall]

theorem toList_text_finite (negative : Bool) {units : Nat} (h : Binary64.Representable units) :
    (layout.text (.finite negative units h)).toList =
      (if negative then ['-'] else []) ++ (layout.magnitudeText units).toList := by
  rw [Layout.text_finite, String.toList_append]
  cases negative <;> rfl

/-- **The word of a double stands for it**, unless it is the missing number. -/
theorem ofText_text {x : Binary64} (hx : x ≠ .nan) : ofText (layout.text x) = .float x := by
  cases x with
  | nan => exact absurd rfl hx
  | infinity negative => cases negative <;> decide
  | finite negative units h =>
    have hnumeral := Layout.isNumeralText_magnitudeText isNumeric_layout units
    have hsign := exists_sign_magnitudeText units
    have hlist := toList_text_finite negative h
    have hleads : leadsWithDigit (layout.text (.finite negative units h)).toList :=
      hlist ▸ leadsWithDigit_of_isNumeralText hnumeral negative
    have hinteger : integer? (layout.text (.finite negative units h)).toList = none := by
      rw [hlist]
      have hnone := magnitude?_eq_none hnumeral.all hsign
      obtain ⟨c, hhead, hc⟩ := hnumeral.head
      obtain ⟨cs, hcs⟩ := List.head?_eq_some_iff.1 hhead
      cases negative with
      | true =>
        have hminus := integer?_minus (layout.magnitudeText units).toList
        rwa [hnone] at hminus
      | false =>
        rw [hcs] at hnone ⊢
        exact (integer?_digit hc cs).trans (by rw [hnone]; rfl)
    have hread : float? (layout.text (.finite negative units h)) = some (.finite negative units h) := by
      rw [float?_eq hleads, Binary64.ofText?_text isNumeric_layout rfl]
      rfl
    have hzero : leadsWithZero (layout.text (.finite negative units h)).toList = false :=
      hlist ▸ leadsWithZero_eq_false hnumeral hsign negative
    rw [ofText_of_leadsWithDigit hleads, hinteger, hread, hzero]
    rfl

/-- **A text that is not ambiguous stands for itself.** -/
theorem ofText_of_not_ambiguous (h : Style.isAmbiguous s = false) : ofText s = .text := by
  rw [Style.isAmbiguous, Bool.or_eq_false_iff, decide_eq_false_iff_not, not_not] at h
  exact h.1

end Word

end BoundSql.Yaml
