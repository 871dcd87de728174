import BoundSql.Proofs.Number.Layout
import BoundSql.Proofs.Number.Nearest
import Mathlib.Tactic.FieldSimp

/-!
# Numerals as they are written

A decimal numeral is a sign, digits with a point among or beside them, and an exponent; only the digits may not be left
out. It stands for one rational number (`WrittenNumeral.value`). The double that is read from it is the nearest to this
number (`WrittenNumeral.ofText?_chars`), and it is read as an integer of 64 bits if and only if it is written without a
point and an exponent and stands for such an integer (`WrittenNumeral.int64OfText?_chars`).
-/

namespace BoundSql

/-! ## Parts of a numeral -/

/-- A sign that may be left out. -/
inductive WrittenSign where
  | absent
  | plus
  | minus

namespace WrittenSign

def chars : WrittenSign → List Char
  | absent => []
  | plus => ['+']
  | minus => ['-']

def isMinus : WrittenSign → Bool
  | minus => true
  | _ => false

end WrittenSign

/-- ASCII digits. -/
structure WrittenDigits where
  chars : List Char
  all : chars.all Char.isDigit

/-- The number that digits stand for. -/
def WrittenDigits.value (d : WrittenDigits) : Nat := Text.decimalValue d.chars

/-- An exponent: a letter in either case, a sign that may be left out, and digits. -/
structure WrittenExponent where
  upper : Bool
  sign : WrittenSign
  digits : WrittenDigits
  nonempty : digits.chars ≠ []

namespace WrittenExponent

def chars (e : WrittenExponent) : List Char := (if e.upper then 'E' else 'e') :: (e.sign.chars ++ e.digits.chars)

def value (e : WrittenExponent) : Int := if e.sign.isMinus then -e.digits.value else e.digits.value

open Numeral in
theorem exponent?_chars (e : WrittenExponent) : exponent? (e.sign.chars ++ e.digits.chars) = some e.value := by
  obtain ⟨hplain, hplus, hminus⟩ := exponent?_digits e.nonempty e.digits.all
  rw [value]
  cases e.sign with
  | absent => exact hplain
  | plus => exact hplus
  | minus => exact hminus

end WrittenExponent

/-! ## Numerals -/

/-- A decimal numeral: a sign that may be left out, digits before a point or behind it, and an exponent that may be left
out. -/
structure WrittenNumeral where
  sign : WrittenSign
  whole : WrittenDigits
  /-- Digits behind a point, if there is one. -/
  fraction : Option WrittenDigits
  exponent : Option WrittenExponent
  nonempty : whole.chars ++ fraction.elim [] WrittenDigits.chars ≠ []

namespace WrittenNumeral

/-- Digits behind the point. -/
def decimals (w : WrittenNumeral) : List Char := w.fraction.elim [] WrittenDigits.chars

/-- The exponent with its letter, if there is one. -/
def scale (w : WrittenNumeral) : List Char := w.exponent.elim [] WrittenExponent.chars

/-- What stands behind the sign. -/
def unsigned (w : WrittenNumeral) : List Char :=
  w.whole.chars ++ (w.fraction.elim [] (fun d => '.' :: d.chars) ++ w.scale)

/-- The numeral as a text. -/
def chars (w : WrittenNumeral) : List Char := w.sign.chars ++ w.unsigned

/-- The power of ten of the exponent. -/
def shift (w : WrittenNumeral) : Int := w.exponent.elim 0 WrittenExponent.value

/-- The number that a numeral stands for. -/
def value (w : WrittenNumeral) : ℚ :=
  Binary64.signed w.sign.isMinus
    ((w.whole.value + Text.decimalValue w.decimals / 10 ^ w.decimals.length) * 10 ^ w.shift)

/-- Whether a numeral has neither a point nor an exponent. -/
def IsPlain (w : WrittenNumeral) : Prop := w.fraction = none ∧ w.exponent = none

/-- The numeral as it is read: all of its digits, and an exponent that allows for those behind the point. -/
def numeral (w : WrittenNumeral) : Numeral :=
  ⟨w.sign.isMinus, w.whole.chars ++ w.decimals, w.shift - w.decimals.length⟩

variable (w : WrittenNumeral)

theorem all_decimals : w.decimals.all Char.isDigit := by
  rw [decimals]
  cases w.fraction with
  | none => rfl
  | some d => exact d.all

theorem all_digits : w.numeral.digits.all Char.isDigit := by
  show (w.whole.chars ++ w.decimals).all Char.isDigit
  rw [List.all_append, w.whole.all, w.all_decimals]
  rfl

/-- The value by all digits at once. -/
theorem value_eq : w.value =
    Binary64.signed w.sign.isMinus (Text.decimalValue w.numeral.digits * 10 ^ w.numeral.exponent) := by
  have hten : (10 : ℚ) ≠ 0 := by norm_num
  have hpow : (10 : ℚ) ^ w.decimals.length ≠ 0 := pow_ne_zero _ hten
  show Binary64.signed _ _ = Binary64.signed _ ((Text.decimalValue (w.whole.chars ++ w.decimals) : ℚ) *
    10 ^ (w.shift - w.decimals.length))
  rw [Text.decimalValue_append, zpow_sub₀ hten, zpow_natCast, WrittenDigits.value]
  push_cast
  congr 1
  field_simp

/-! ## Reading -/

/-- Behind the sign stands a digit or a point. -/
theorem exists_head : ∃ c cs, w.unsigned = c :: cs ∧ (c.isDigit ∨ c = '.') := by
  have hne := w.nonempty
  rw [unsigned]
  cases hwhole : w.whole.chars with
  | cons c cs =>
    have hall := w.whole.all
    rw [hwhole, List.all_cons, Bool.and_eq_true] at hall
    exact ⟨c, _, rfl, Or.inl hall.1⟩
  | nil =>
    cases hfraction : w.fraction with
    | some d => exact ⟨'.', _, rfl, Or.inr rfl⟩
    | none =>
      rw [hwhole, hfraction] at hne
      exact absurd rfl hne

theorem splitSign_chars : Numeral.splitSign w.chars = (w.sign.isMinus, w.unsigned) := by
  rw [chars]
  cases w.sign with
  | absent =>
    obtain ⟨c, cs, hcs, hc⟩ := w.exists_head
    show Numeral.splitSign w.unsigned = (false, w.unsigned)
    rw [hcs, Numeral.splitSign_of_head hc]
  | plus => rfl
  | minus => rfl

/-- Digits and a point end in front of the exponent. -/
theorem stops_scale : Numeral.Stops w.scale ∧ w.scale.head? ≠ some '.' := by
  rw [scale]
  cases w.exponent with
  | none => exact ⟨Numeral.stops_nil, fun h => nomatch h⟩
  | some e =>
    have hmark : (if e.upper then 'E' else 'e') = 'E' ∨ (if e.upper then 'E' else 'e') = 'e' := by
      cases e.upper
      · exact Or.inr rfl
      · exact Or.inl rfl
    constructor
    · intro c hc
      obtain rfl : (if e.upper then 'E' else 'e') = c := Option.some.inj hc
      rcases hmark with h | h <;> rw [h] <;> rfl
    · intro h
      have hpoint : (if e.upper then 'E' else 'e') = '.' := Option.some.inj h
      rcases hmark with h | h <;> rw [h] at hpoint <;> cases hpoint

theorem ending?_scale (digits : List Char) (places : Nat) :
    Numeral.ending? w.sign.isMinus digits places w.scale = some ⟨w.sign.isMinus, digits, w.shift - places⟩ := by
  rw [scale, shift]
  cases w.exponent with
  | none => exact congrArg some (congrArg (Numeral.mk _ _) (Int.zero_sub _).symm)
  | some e =>
    have hmark : ((if e.upper then 'E' else 'e') = 'e' || (if e.upper then 'E' else 'e') = 'E') = true := by
      cases e.upper <;> rfl
    show Numeral.ending? _ _ _ e.chars = _
    rw [WrittenExponent.chars, Numeral.ending?, if_pos hmark, e.exponent?_chars]
    rfl

/-- The parts of a numeral are found. -/
theorem ofUnsigned?_unsigned : Numeral.ofUnsigned? w.sign.isMinus w.unsigned = some w.numeral := by
  obtain ⟨hstops, hpoint⟩ := w.stops_scale
  have hne := w.nonempty
  have hending := w.ending?_scale w.numeral.digits w.decimals.length
  refine Eq.trans ?_ hending
  rw [unsigned]
  show _ = Numeral.ending? _ (w.whole.chars ++ w.decimals) w.decimals.length w.scale
  rw [decimals]
  cases hfraction : w.fraction with
  | none =>
    rw [hfraction] at hne
    show Numeral.ofUnsigned? _ (w.whole.chars ++ w.scale) = Numeral.ending? _ (w.whole.chars ++ []) 0 w.scale
    rw [List.append_nil]
    exact Numeral.ofUnsigned?_whole _ w.whole.all (fun h => hne (by rw [h]; rfl)) hstops hpoint
  | some d =>
    rw [hfraction] at hne
    exact Numeral.ofUnsigned?_point _ w.whole.all hne d.all hstops

/-- **The double that is read from a numeral is the nearest to its value.** -/
theorem ofText?_chars : ∃ x : Binary64, Binary64.ofText? w.chars = some x ∧ x.IsNearest w.value := by
  obtain ⟨c, cs, hcs, hc⟩ := w.exists_head
  have hsign := w.splitSign_chars
  rw [hcs] at hsign
  refine ⟨w.numeral.toBinary64, ?_, ?_⟩
  · rw [Binary64.ofText?_of_head hsign hc, ← hcs, ofUnsigned?_unsigned]
    rfl
  · rw [Numeral.toBinary64_eq _ w.all_digits, value_eq]
    exact Binary64.ofDecimal_isNearest _ _ _

/-! ## Whole numbers of 64 bits -/

/-- Digits and nothing else stand behind the sign of a numeral without a point and an exponent. -/
theorem all_unsigned : w.unsigned.all Char.isDigit = true ↔ w.IsPlain := by
  rw [unsigned, scale, IsPlain, List.all_append, w.whole.all, Bool.true_and]
  cases w.fraction with
  | some d => simp
  | none =>
    cases w.exponent with
    | none => simp
    | some e =>
      have hmark : (if e.upper then 'E' else 'e').isDigit = false := by
        cases e.upper <;> rfl
      simp [WrittenExponent.chars, hmark]

/-- A numeral without a point and an exponent stands for its digits with its sign. -/
theorem value_of_isPlain {w : WrittenNumeral} (h : w.IsPlain) : w.unsigned = w.whole.chars ∧
    w.value = ((if w.sign.isMinus then -(w.whole.value : Int) else w.whole.value : Int) : ℚ) := by
  obtain ⟨sign, whole, fraction, exponent, hne⟩ := w
  obtain ⟨rfl, rfl⟩ := h
  refine ⟨List.append_nil _, ?_⟩
  rw [← Binary64.signed_natCast]
  refine congrArg (Binary64.signed _) ?_
  simp [decimals, shift, Text.decimalValue]

/-- **Only a numeral without a point and an exponent is read as a whole number**, by all of its digits. -/
theorem intOfText?_chars (n : Int) : intOfText? w.chars = some n ↔ w.IsPlain ∧ w.value = n := by
  obtain ⟨c, cs, hcs, _⟩ := w.exists_head
  have hempty : w.unsigned.isEmpty = false := by rw [hcs]; rfl
  rw [intOfText?, splitSign_chars]
  simp only [hempty, Bool.false_or]
  by_cases hplain : w.IsPlain
  · obtain ⟨hunsigned, hvalue⟩ := value_of_isPlain hplain
    rw [w.all_unsigned.2 hplain, hunsigned, hvalue]
    simp only [Bool.not_true, Bool.false_eq_true, if_false, Option.some.injEq, Int.cast_inj]
    exact (and_iff_right hplain).symm
  · have hall : w.unsigned.all Char.isDigit = false := by
      simpa using mt w.all_unsigned.1 hplain
    simp only [hall, Bool.not_false, if_true]
    constructor
    · intro h
      cases h
    · intro h
      exact absurd h.1 hplain

theorem int64OfText?_chars (n : Int64) : int64OfText? w.chars = some n ↔ w.IsPlain ∧ w.value = n.toInt := by
  rw [← intOfText?_chars, int64OfText?, Option.bind_eq_some_iff]
  constructor
  · rintro ⟨m, hm, hn⟩
    split at hn
    next hrange =>
      simp only [inInt64, Bool.and_eq_true, decide_eq_true_eq] at hrange
      obtain rfl : Int64.ofInt m = n := Option.some.inj hn
      rw [hm, Int64.toInt_ofInt_of_le hrange.1 (Int.lt_of_le_of_lt hrange.2 (by decide))]
    next => cases hn
  · intro h
    exact ⟨_, h, by rw [if_pos (inInt64_toInt n), Int64.ofInt_toInt]⟩

end WrittenNumeral

end BoundSql
