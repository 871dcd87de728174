import BoundSql.Proofs.Number.Rounding
import BoundSql.Proofs.Placeholder.Position

/-!
# Numerals as exact numbers

A numeral stands for its digits times a power of ten, and its double is the one nearest to that
(`Numeral.toBinary64_eq`): the bounds on the first digit's weight, which spare the work for numerals that are far
outside of the finite range, do not change it.
-/

namespace BoundSql

/-! ## Values of digits -/

namespace Text

theorem decimalValue_append (xs ys : List Char) :
    decimalValue (xs ++ ys) = decimalValue xs * 10 ^ ys.length + decimalValue ys := by
  have hfrom (ys : List Char) (n : Nat) : ys.foldl (fun n c => 10 * n + digitValue c) n =
      n * 10 ^ ys.length + decimalValue ys := by
    induction ys generalizing n with
    | nil => simp [decimalValue]
    | cons c cs ih =>
      rw [decimalValue, List.foldl_cons, List.foldl_cons, ih, ih (10 * 0 + digitValue c), List.length_cons]
      ring
  rw [decimalValue, List.foldl_append, hfrom]
  rfl

theorem decimalValue_replicate_zero (k : Nat) : decimalValue (List.replicate k '0') = 0 := by
  induction k with
  | zero => rfl
  | succ k ih => exact ih

theorem decimalValue_append_zeros (cs : List Char) (k : Nat) :
    decimalValue (cs ++ List.replicate k '0') = decimalValue cs * 10 ^ k := by
  rw [decimalValue_append, decimalValue_replicate_zero, List.length_replicate, Nat.add_zero]

theorem decimalValue_zeros_append (cs : List Char) (k : Nat) :
    decimalValue (List.replicate k '0' ++ cs) = decimalValue cs := by
  rw [decimalValue_append, decimalValue_replicate_zero, Nat.zero_mul, Nat.zero_add]

theorem decimalValue_dropZeros (cs : List Char) : decimalValue (cs.dropWhile (· = '0')) = decimalValue cs := by
  induction cs with
  | nil => rfl
  | cons c cs ih =>
    by_cases hc : c = '0'
    · subst hc
      exact ih
    · rw [List.dropWhile_cons_of_neg (by simpa using hc)]

theorem digitValue_lt {c : Char} (h : c.isDigit) : digitValue c < 10 := by
  simp only [Char.isDigit, Bool.and_eq_true, decide_eq_true_eq] at h
  have hlow : 48 ≤ c.toNat := h.1
  have hhigh : c.toNat ≤ 57 := h.2
  show c.toNat - 48 < 10
  omega

theorem decimalValue_lt {cs : List Char} (h : cs.all Char.isDigit) : decimalValue cs < 10 ^ cs.length := by
  induction cs with
  | nil => exact Nat.one_pos
  | cons c cs ih =>
    rw [List.all_cons, Bool.and_eq_true] at h
    have hc := digitValue_lt h.1
    have hcs := ih h.2
    have happend := decimalValue_append [c] cs
    have hone : decimalValue [c] = digitValue c := Nat.zero_add _
    rw [List.singleton_append, hone] at happend
    rw [happend, List.length_cons, Nat.pow_succ']
    have := Nat.mul_le_mul_right (10 ^ cs.length) (show digitValue c + 1 ≤ 10 by omega)
    rw [Nat.add_mul] at this
    omega

/-- Digits of which the first is not zero. -/
theorem le_decimalValue {c : Char} (cs : List Char) (hdigit : c.isDigit) (hzero : c ≠ '0') :
    10 ^ cs.length ≤ decimalValue (c :: cs) := by
  have happend := decimalValue_append [c] cs
  have hone : decimalValue [c] = digitValue c := Nat.zero_add _
  rw [List.singleton_append, hone] at happend
  have hpos : 0 < digitValue c := by
    simp only [Char.isDigit, Bool.and_eq_true, decide_eq_true_eq] at hdigit
    have hlow : 48 ≤ c.toNat := hdigit.1
    have hne : c.toNat ≠ 48 := fun h => hzero (Char.toNat_inj.1 h)
    show 0 < c.toNat - 48
    omega
  rw [happend]
  have := Nat.le_mul_of_pos_left (10 ^ cs.length) hpos
  omega

end Text

/-! ## Doubles of numerals -/

open Binary64 (ofDecimal ofDecimal_sub ofRatio_of_large ofRatio_of_small)

/-- A decimal whose digits and exponent together say that it is beyond the finite doubles. -/
theorem Binary64.ofDecimal_of_large (negative : Bool) {digits k : Nat} {exponent : Int} (hdigits : 10 ^ k ≤ digits)
    (h : 310 ≤ exponent + k) : ofDecimal negative digits exponent = .infinity negative := by
  obtain ⟨a, b, rfl⟩ : ∃ a b : Nat, exponent = a - b := ⟨exponent.toNat, (-exponent).toNat, by omega⟩
  rw [ofDecimal_sub]
  refine ofRatio_of_large negative (Nat.pow_pos (by decide)) ?_
  obtain ⟨m, hm, hlimit⟩ : ∃ m ≤ 310, limit ≤ 10 ^ m * unit := ⟨310, Nat.le_refl _, by decide +kernel⟩
  calc limit * 10 ^ b ≤ 10 ^ m * unit * 10 ^ b := Nat.mul_le_mul_right _ hlimit
    _ = 10 ^ (m + b) * unit := by rw [pow_add]; ring
    _ ≤ 10 ^ (k + a) * unit := Nat.mul_le_mul_right _ (Nat.pow_le_pow_right (by decide) (by omega))
    _ = 10 ^ k * 10 ^ a * unit := by rw [pow_add]
    _ ≤ digits * 10 ^ a * unit := Nat.mul_le_mul_right _ (Nat.mul_le_mul_right _ hdigits)

/-- A decimal whose digits and exponent together say that it is nearer to zero than to any other double. -/
theorem Binary64.ofDecimal_of_small (negative : Bool) {digits k : Nat} {exponent : Int} (hdigits : digits < 10 ^ k)
    (h : exponent + k ≤ -324) : ofDecimal negative digits exponent = ofRatio negative 0 1 := by
  obtain ⟨a, b, rfl⟩ : ∃ a b : Nat, exponent = a - b := ⟨exponent.toNat, (-exponent).toNat, by omega⟩
  rw [ofDecimal_sub]
  refine ofRatio_of_small negative ?_
  obtain ⟨m, hm, hunit⟩ : ∃ m ≤ 324, 2 * unit < 10 ^ m := ⟨324, Nat.le_refl _, by decide +kernel⟩
  calc 2 * (digits * 10 ^ a * unit) ≤ 2 * (10 ^ k * 10 ^ a * unit) :=
        Nat.mul_le_mul_left _ (Nat.mul_le_mul_right _ (Nat.mul_le_mul_right _ hdigits.le))
    _ = 10 ^ (k + a) * (2 * unit) := by rw [pow_add]; ring
    _ < 10 ^ (k + a) * 10 ^ m := Nat.mul_lt_mul_of_pos_left hunit (Nat.pow_pos (by decide))
    _ ≤ 10 ^ b := by rw [← pow_add]; exact Nat.pow_le_pow_right (by decide) (by omega)

/-- **The double of a numeral is the one nearest to its exact value.** -/
theorem Numeral.toBinary64_eq (n : Numeral) (h : n.digits.all Char.isDigit) :
    n.toBinary64 = ofDecimal n.negative (Text.decimalValue n.digits) n.exponent := by
  have hall : (n.digits.dropWhile (· = '0')).all Char.isDigit := by
    rw [List.all_eq_true] at h ⊢
    exact fun c hc => h c ((List.dropWhile_sublist _).subset hc)
  have hlt := Text.decimalValue_lt hall
  rw [← Text.decimalValue_dropZeros]
  rw [Numeral.toBinary64]
  cases hdigits : n.digits.dropWhile (· = '0') with
  | nil =>
    have hpos : 2 * (0 * Binary64.unit) < Nat.pow 10 (-n.exponent).toNat := by
      rw [Nat.zero_mul, Nat.pow_eq]
      exact Nat.pow_pos (by decide)
    rw [show Text.decimalValue [] = 0 from rfl, ofDecimal, Nat.zero_mul, ofRatio_of_small _ hpos]
    simp only [List.isEmpty_nil, Bool.true_or, if_true]
  | cons c cs =>
    rw [hdigits] at hall hlt
    have hzero : c ≠ '0' := by
      have := List.head_dropWhile_not (· = '0') (l := n.digits) (by rw [hdigits]; exact List.cons_ne_nil c cs)
      simpa [hdigits] using this
    rw [List.all_cons, Bool.and_eq_true] at hall
    have hle := Text.le_decimalValue cs hall.1 hzero
    simp only [List.isEmpty_cons, Bool.false_or, decide_eq_true_eq]
    split
    next hsmall => exact (Binary64.ofDecimal_of_small n.negative hlt (by omega)).symm
    next =>
      split
      next hlarge =>
        rw [List.length_cons] at hlarge
        exact (Binary64.ofDecimal_of_large n.negative hle (by omega)).symm
      next => rfl

end BoundSql
