import BoundSql.Proofs.Condition.Ranges
import BoundSql.Proofs.Number.Written

/-!
# The integers that values are taken for

A double is taken for an integer of 64 bits if it is one (`Binary64.toInt64?_eq_some`); but `2 ^ 63`, which is none, is
taken for the integer below it, and no other double is taken for an integer that it is not (`Value.integer_float`). A
numeral in a text is read exactly if it is written without a point and an exponent and fits 64 bits. Any other numeral is
read through the double nearest to it, so it is read exactly unless that double is taken for another integer
(`Value.integer_numeral`).
-/

namespace BoundSql

/-! ## Doubles -/

namespace Binary64

/-- The integer that a double is taken for: the one that it is and, for the first one with more than 64 bits, the one
below. -/
def TakenFor (x : Binary64) (n : Int64) : Prop :=
  x.value? = some (n.toInt : ℚ) ∨ x.value? = some (2 ^ 63) ∧ n = Int64.maxValue

variable {x : Binary64}

theorem toInt?_eq_some {n : Int} : x.toInt? = some n ↔ x.value? = some (n : ℚ) := by
  cases x with
  | nan => exact ⟨nofun, nofun⟩
  | infinity => exact ⟨nofun, nofun⟩
  | finite negative units hrep =>
    have hpos := cast_unit_pos
    rw [toInt?, value?]
    by_cases hdvd : unit ∣ units
    · obtain ⟨t, ht⟩ := hdvd
      rw [ht, Nat.mul_comm, mul_unit_div, signed_natCast, if_pos (Nat.mul_mod_left _ _),
        Nat.mul_div_cancel _ (by exact_mod_cast hpos)]
      simp only [Option.some.injEq, Int.cast_inj]
    · rw [if_neg fun h => hdvd (Nat.dvd_of_mod_eq_zero h)]
      refine ⟨nofun, fun h => absurd ?_ hdvd⟩
      have habs : (units / unit : ℚ) = (n.natAbs : ℚ) := by
        have hsigned : signed negative (units / unit) = n := Option.some.inj h
        rw [Nat.cast_natAbs, Int.cast_abs, ← hsigned, abs_signed]
        exact (abs_of_nonneg (div_nonneg (Nat.cast_nonneg _) hpos.le)).symm
      rw [div_eq_iff hpos.ne'] at habs
      exact ⟨n.natAbs, by rw [Nat.mul_comm]; exact_mod_cast habs⟩

/-- **What a double is taken for** is found. -/
theorem toInt64?_eq_some {n : Int64} : x.toInt64? = some n ↔ x.TakenFor n := by
  rw [toInt64?, Option.bind_eq_some_iff]
  constructor
  · rintro ⟨m, hm, hn⟩
    rw [toInt?_eq_some] at hm
    simp only [Option.ite_none_right_eq_some, Option.some.injEq] at hn
    obtain ⟨⟨hlow, hhigh⟩, rfl⟩ := hn
    rcases Int.lt_or_eq_of_le hhigh with hlt | rfl
    · left
      rw [hm, Int.min_eq_left (Int.le_of_lt_add_one hlt), Int64.toInt_ofInt_of_le hlow hlt]
    · right
      rw [Int64.toInt_maxValue] at hm
      exact ⟨hm.trans (by norm_num), by decide⟩
  · rintro (h | ⟨h, rfl⟩)
    · refine ⟨n.toInt, toInt?_eq_some.2 h, ?_⟩
      have hle := n.toInt_le
      simp only [Option.ite_none_right_eq_some, Option.some.injEq]
      exact ⟨⟨n.minValue_le_toInt, by omega⟩, by rw [Int.min_eq_left hle, Int64.ofInt_toInt]⟩
    · exact ⟨2 ^ 63, toInt?_eq_some.2 (h.trans (by norm_num)), by decide⟩

/-- A double that is an integer from `-2 ^ 63` to `2 ^ 63` is taken for one. -/
theorem exists_takenFor {m : Int} (hm : m.natAbs ≤ 2 ^ 63) (h : x.value? = some (m : ℚ)) : ∃ n, x.TakenFor n := by
  by_cases hlarge : m = 2 ^ 63
  · refine ⟨Int64.maxValue, Or.inr ⟨h.trans ?_, rfl⟩⟩
    rw [hlarge]
    norm_num
  · refine ⟨Int64.ofInt m, Or.inl ?_⟩
    rw [h, Int64.toInt_ofInt_of_le (by omega) (by omega)]

end Binary64

/-! ## Values of doubles -/

namespace Value

/-- A value is taken for an integer if and only if the number that it stands for is this integer. -/
def TakenExactly (v : Value) (q? : Option ℚ) : Prop := ∀ n : Int64, v.integer = .ok n ↔ q? = some (n.toInt : ℚ)

theorem elim_eq_ok {α : Type} {o : Option α} {f : Failure} {a : α} :
    o.elim (.error f) (.ok : α → Except Failure α) = .ok a ↔ o = some a := by
  cases o with
  | none => exact ⟨nofun, nofun⟩
  | some b => simp

/-- A value is taken for an integer or refused as an invalid argument. -/
theorem integer_total (v : Value) :
    (∃ n, v.integer = .ok n) ∨ ∃ f, v.integer = .error f ∧ f.kind = .invalidArgument := by
  cases hv : v.integer with
  | error f => exact Or.inr ⟨f, rfl, kind_integer hv⟩
  | ok n => exact Or.inl ⟨n, rfl⟩

end Value

open Condition in
/-- A test for equality with a value names the integer that the value is taken for. -/
theorem Condition.identifiers_equalTo {identifier : FieldRef} {v : Value} {n : Int64} :
    (Condition.equalTo identifier v).identifiers identifier = .ok [n] ↔ v.integer = .ok n := by
  rw [equalTo, compare, ofTerms, identifiers, if_neg Bool.false_ne_true]
  show equalIdentifiers identifier [.field identifier, .literal v] = .ok [n] ↔ _
  rw [equalIdentifiers, map_eq_ok]
  constructor
  · rintro ⟨found, hfound, hids⟩
    cases found with
    | none => cases hids
    | some ns =>
      obtain rfl : ns = [n] := hids
      have hliterals := (anchoredIntegers_eq_ok.1 hfound).2
      cases hliterals with
      | cons h _ => exact h
  · intro h
    exact ⟨some [n], anchoredIntegers_eq_ok.2 ⟨List.mem_cons_self, .cons h .nil⟩, rfl⟩

namespace Value

variable {x : Binary64}

theorem integer_float_eq_ok {n : Int64} : (float x).integer = .ok n ↔ x.TakenFor n := by
  rw [integer, elim_eq_ok, Binary64.toInt64?_eq_some]

/-- Only one double is taken for an integer that it is not. -/
theorem takenExactly_float : (float x).TakenExactly x.value? ↔ x.value? ≠ some (2 ^ 63) := by
  constructor
  · intro hexact hlarge
    have hmax := (hexact Int64.maxValue).1 (integer_float_eq_ok.2 (Or.inr ⟨hlarge, rfl⟩))
    rw [hlarge, Option.some.injEq, Int64.toInt_maxValue] at hmax
    norm_num at hmax
  · intro hsmall n
    rw [integer_float_eq_ok]
    exact or_iff_left fun h => hsmall h.1

/-- **A double is taken for the integer that it is**, and refused as an invalid argument if it is none, with one
exception: `2 ^ 63` is taken for the integer below it. A test of the identifying field for equality with a double names
the same integer. -/
theorem integer_float (x : Binary64) :
    (∀ n : Int64, (float x).integer = .ok n ↔ x.TakenFor n) ∧
    ((∃ n, (float x).integer = .ok n) ∨ ∃ f, (float x).integer = .error f ∧ f.kind = .invalidArgument) ∧
    ((float x).TakenExactly x.value? ↔ x.value? ≠ some (2 ^ 63)) ∧
    ∀ identifier (n : Int64),
      (Condition.equalTo identifier (.float x)).identifiers identifier = .ok [n] ↔ x.TakenFor n := by
  refine ⟨fun n => integer_float_eq_ok, integer_total _, takenExactly_float, fun identifier n => ?_⟩
  rw [Condition.identifiers_equalTo, integer_float_eq_ok]

/-- The first double above the integers of 64 bits. -/
def firstAbove : Binary64 := .ofInt (2 ^ 63)

/-- It is taken for the last of these integers, which it is not. -/
theorem firstAbove_taken : firstAbove.value? = some (2 ^ 63) ∧ (float firstAbove).integer = .ok Int64.maxValue ∧
    ¬(float firstAbove).TakenExactly firstAbove.value? ∧
    (Condition.equalTo (.bare "id") (.float firstAbove)).identifiers (.bare "id") = .ok [Int64.maxValue] := by
  have hwhole : firstAbove.toInt? = some (2 ^ 63) := by decide +kernel
  have hvalue : firstAbove.value? = some (2 ^ 63) := (Binary64.toInt?_eq_some.1 hwhole).trans (by norm_num)
  have hinteger : (float firstAbove).integer = .ok Int64.maxValue := integer_float_eq_ok.2 (Or.inr ⟨hvalue, rfl⟩)
  exact ⟨hvalue, hinteger, fun hexact => takenExactly_float.1 hexact hvalue, Condition.identifiers_equalTo.2 hinteger⟩

end Value

/-! ## Numerals -/

/-- A numeral without a point and an exponent that stands for an integer of 64 bits. -/
def WrittenNumeral.Fits (w : WrittenNumeral) (n : Int64) : Prop := w.IsPlain ∧ w.value = n.toInt

namespace Value

section Numerals

variable {s : String} {w : WrittenNumeral} {x : Binary64}

/-- A numeral is read by its digits if it fits, and through the nearest double otherwise. -/
theorem integer_numeral_eq_ok {n : Int64} (h : Text.trimChars s.toList = w.chars)
    (hx : Binary64.ofText? w.chars = some x) :
    (text s).integer = .ok n ↔ w.Fits n ∨ (∀ m, ¬w.Fits m) ∧ x.TakenFor n := by
  have hfits (m : Int64) : int64OfText? w.chars = some m ↔ w.Fits m := w.int64OfText?_chars m
  have hnone : int64OfText? w.chars = none ↔ ∀ m, ¬w.Fits m := by
    simp only [← hfits, Option.eq_none_iff_forall_ne_some, ne_eq]
  rw [integer, elim_eq_ok, integerOfText?, h, hx, Option.bind_some, Option.or_eq_some_iff, hfits, hnone,
    Binary64.toInt64?_eq_some]

/-- A numeral is read exactly if it fits, or if the nearest double is not taken for another integer; a numeral for an
integer of 64 bits never goes unread, since the double nearest to it is an integer. -/
theorem takenExactly_numeral (hnearest : x.IsNearest w.value)
    (htaken : ∀ n : Int64, (text s).integer = .ok n ↔ w.Fits n ∨ (∀ m, ¬w.Fits m) ∧ x.TakenFor n) :
    (text s).TakenExactly (some w.value) ↔ (∃ m, w.Fits m) ∨ ∀ n : Int64, x.TakenFor n → w.value = n.toInt := by
  simp only [TakenExactly, htaken, Option.some.injEq]
  by_cases hfits : ∃ m, w.Fits m
  · obtain ⟨m, hm⟩ := hfits
    refine iff_of_true (fun n => ⟨?_, fun hvalue => Or.inl ⟨hm.1, hvalue⟩⟩) (Or.inl ⟨m, hm⟩)
    rintro (hn | ⟨hnone, _⟩)
    · exact hn.2
    · exact absurd hm (hnone m)
  · have hnone : ∀ m, ¬w.Fits m := fun m hm => hfits ⟨m, hm⟩
    constructor
    · intro hexact
      exact Or.inr fun n hn => (hexact n).1 (Or.inr ⟨hnone, hn⟩)
    · rintro (hsome | hexact)
      · exact absurd hsome hfits
      · intro n
        refine ⟨?_, fun hvalue => Or.inr ⟨hnone, ?_⟩⟩
        · rintro (hn | ⟨_, hn⟩)
          · exact hn.2
          · exact hexact n hn
        · have hn : n.toInt.natAbs ≤ 2 ^ 63 := by
            have hlow := Int64.le_toInt n
            have hhigh := Int64.toInt_lt n
            omega
          rw [hvalue] at hnearest
          obtain ⟨m, hm, hx⟩ := hnearest.exists_int hn
          obtain ⟨k, hk⟩ := Binary64.exists_takenFor hm hx
          have hkn : (n.toInt : ℚ) = k.toInt := hvalue.symm.trans (hexact k hk)
          rwa [Int64.toInt_inj.1 (Int.cast_inj.1 hkn)]

/-- **A numeral is read exactly unless it is read through a double that is another integer.** Every text that holds a
numeral between blanks is taken for the integer that the numeral stands for, if it is written without a point and an
exponent and fits 64 bits. Any other numeral is taken for what the double nearest to it is taken for. So a numeral that
stands for an integer up to `2 ^ 53` is read exactly however it is written. -/
theorem integer_numeral (h : Text.trimChars s.toList = w.chars) :
    ∃ x : Binary64, x.IsNearest w.value ∧
      (∀ n : Int64, (text s).integer = .ok n ↔ w.Fits n ∨ (∀ m, ¬w.Fits m) ∧ x.TakenFor n) ∧
      ((∃ n, (text s).integer = .ok n) ∨ ∃ f, (text s).integer = .error f ∧ f.kind = .invalidArgument) ∧
      ((text s).TakenExactly (some w.value) ↔
        (∃ m, w.Fits m) ∨ ∀ n : Int64, x.TakenFor n → w.value = n.toInt) ∧
      ((∃ m : Int, m.natAbs ≤ 2 ^ 53 ∧ w.value = m) → (text s).TakenExactly (some w.value)) := by
  obtain ⟨x, hx, hnearest⟩ := w.ofText?_chars
  have htaken (n : Int64) := integer_numeral_eq_ok (n := n) h hx
  have hexact := takenExactly_numeral hnearest htaken
  refine ⟨x, hnearest, htaken, integer_total _, hexact, ?_⟩
  rintro ⟨m, hm, hvalue⟩
  refine hexact.2 (Or.inr fun n hn => ?_)
  rw [hvalue] at hnearest
  obtain ⟨y, hy⟩ := Binary64.exists_value?_eq_int hm
  have hm' : x.value? = some (m : ℚ) := hnearest.value?_eq hy
  rcases hn with hn | ⟨hn, _⟩
  · exact hvalue.trans (Option.some.inj (hm'.symm.trans hn))
  · have hlarge : (m : ℚ) = 2 ^ 63 := Option.some.inj (hm'.symm.trans hn)
    have hm63 : m = 2 ^ 63 := by exact_mod_cast hlarge
    omega

end Numerals

/-- A thousand, in a power of ten. -/
def thousand : WrittenNumeral :=
  ⟨.plus, ⟨['1'], rfl⟩, none, some ⟨false, .absent, ⟨['3'], rfl⟩, by decide⟩, by decide⟩

/-- The first whole number that is no double, with a point. -/
def oddAbove : WrittenNumeral :=
  ⟨.absent, ⟨"9007199254740993".toList, by decide⟩, some ⟨['0'], rfl⟩, none, by decide⟩

theorem thousand_taken : Text.trimChars " +1e3 ".toList = thousand.chars ∧
    (text " +1e3 ").integer = .ok 1000 := by
  have htext : Text.trimChars " +1e3 ".toList = thousand.chars := by decide
  have hvalue : thousand.value = 1000 := by
    show ((1 : Nat) + (0 : Nat) / 10 ^ 0 : ℚ) * 10 ^ (3 : Int) = 1000
    norm_num
  obtain ⟨x, _, _, _, _, hexact⟩ := integer_numeral htext
  refine ⟨htext, (hexact ⟨1000, by decide, hvalue⟩ 1000).2 ?_⟩
  rw [hvalue]
  rfl

/-- It is taken for the whole number before it. -/
theorem oddAbove_taken : Text.trimChars "9007199254740993.0".toList = oddAbove.chars ∧
    oddAbove.value = 9007199254740993 ∧ (text "9007199254740993.0").integer = .ok 9007199254740992 ∧
    ¬(text "9007199254740993.0").TakenExactly (some oddAbove.value) := by
  have hvalue : oddAbove.value = 9007199254740993 := by
    have hwhole : oddAbove.whole.value = 9007199254740993 := by decide
    show (oddAbove.whole.value + (0 : Nat) / 10 ^ 1 : ℚ) * 10 ^ (0 : Int) = 9007199254740993
    rw [hwhole]
    norm_num
  have hinteger : (text "9007199254740993.0").integer = .ok 9007199254740992 := by
    apply eq_ok_of_toOption
    decide +kernel
  refine ⟨by decide, hvalue, hinteger, fun hexact => ?_⟩
  have hother := (hexact _).1 hinteger
  rw [hvalue, Option.some.injEq] at hother
  revert hother
  decide

end Value

end BoundSql
