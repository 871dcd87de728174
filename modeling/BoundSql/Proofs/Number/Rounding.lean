import BoundSql.Number.Numeral
import Mathlib.Data.Nat.Log
import Mathlib.Tactic.Ring
import Mathlib.Tactic.Linarith

/-!
# Rounding to the nearest double

The reals that round to a magnitude reach half a gap upwards, and downwards half a gap or, from a power of two, a
quarter (`roundUnits_of_above`, `roundUnits_of_below`). Only the value of a quotient counts for what it rounds to
(`roundUnits_mul_right`), so a decimal may be written with any power of ten in front (`ofDecimal_mul_pow`), and the
bounds that a numeral is compared with first do not change what it rounds to (`Numeral.toBinary64_eq`).
-/

namespace BoundSql

namespace Binary64

/-! ## One rounding -/

theorem roundHalfEven_eq {num den m : Nat} (hden : 0 < den) (hlow : 2 * (m * den) ≤ 2 * num + den)
    (hhigh : 2 * num ≤ 2 * (m * den) + den)
    (hties : 2 * (m * den) = 2 * num + den ∨ 2 * num = 2 * (m * den) + den → m % 2 = 0) :
    roundHalfEven num den = m := by
  have hnum : num / den * den + num % den = num := Nat.div_add_mod' num den
  have hrest : num % den < den := Nat.mod_lt num hden
  have hle : m ≤ num / den + 1 := by
    by_contra hlt
    have := Nat.mul_le_mul_right den (show num / den + 2 ≤ m by omega)
    rw [Nat.add_mul] at this
    omega
  have hge : num / den ≤ m := by
    by_contra hlt
    have := Nat.mul_le_mul_right den (show m + 1 ≤ num / den by omega)
    rw [Nat.add_mul] at this
    omega
  rw [roundHalfEven]
  obtain rfl | rfl : m = num / den ∨ m = num / den + 1 := by omega
  · split
    · rfl
    · split <;> omega
  · rw [Nat.add_mul] at hlow hhigh hties
    split
    · omega
    · split <;> omega

theorem spacing_pos (u : Nat) : 0 < spacing u := by
  rw [spacing, Nat.pow_eq]
  exact Nat.two_pow_pos _

theorem spacing_of_bounds {u k : Nat} (hlow : 2 ^ k ≤ u) (hhigh : u < 2 ^ (k + 1)) : spacing u = 2 ^ (k - 52) := by
  have hu : u ≠ 0 := fun h => absurd (h ▸ hlow) (Nat.not_le.2 (Nat.two_pow_pos k))
  rw [spacing, (Nat.log2_eq_iff hu).2 ⟨hlow, hhigh⟩, Nat.pow_eq]

theorem roundUnits_mul_right (num den : Nat) {t : Nat} (ht : 0 < t) :
    roundUnits (num * t) (den * t) = roundUnits num den := by
  have hstep (step : Nat) : roundHalfEven (num * t) (den * t * step) = roundHalfEven num (den * step) := by
    have hrest : 2 * (num * t % (den * step * t)) = 2 * (num % (den * step)) * t := by
      rw [Nat.mul_mod_mul_right, Nat.mul_assoc]
    rw [Nat.mul_right_comm den t step]
    simp only [roundHalfEven, Nat.mul_div_mul_right _ _ ht, hrest, Nat.mul_lt_mul_right ht]
  simp only [roundUnits, Nat.mul_div_mul_right _ _ ht, hstep]

/-! ## What rounds to a magnitude -/

/-- Whether a distance, in parts of `den`, is at most so many quarters of the gap above a magnitude; just so many are
allowed if the significand is even. -/
structure Reaches (units quarters distance den : Nat) : Prop where
  within : 4 * distance ≤ quarters * spacing units * den
  even : 4 * distance = quarters * spacing units * den → units / spacing units % 2 = 0

/-- Quarters of the gap above a magnitude that reach down from it: below a power of two the gap is half as wide. -/
def quartersBelow (units : Nat) : Nat := if units = Nat.pow 2 units.log2 && 1 < spacing units then 1 else 2

variable {units num den rest : Nat}

/-- A quotient in the binade of a magnitude, and within half a gap of it. -/
theorem roundUnits_of_spacing (hden : 0 < den) (hunits : spacing units ∣ units)
    (hspacing : spacing (num / den) = spacing units)
    (hlow : 2 * (units * den) ≤ 2 * num + spacing units * den)
    (hhigh : 2 * num ≤ 2 * (units * den) + spacing units * den)
    (hties : 2 * (units * den) = 2 * num + spacing units * den ∨ 2 * num = 2 * (units * den) + spacing units * den →
      units / spacing units % 2 = 0) :
    roundUnits num den = units := by
  have hm : units / spacing units * (den * spacing units) = units * den := by
    rw [Nat.mul_comm den, ← Nat.mul_assoc, Nat.div_mul_cancel hunits]
  have hround : roundHalfEven num (den * spacing units) = units / spacing units := by
    refine roundHalfEven_eq (Nat.mul_pos hden (spacing_pos units)) ?_ ?_ ?_ <;> rw [hm, Nat.mul_comm den]
    · exact hlow
    · exact hhigh
    · exact hties
  rw [roundUnits, hspacing]
  show roundHalfEven num (den * spacing units) * spacing units = units
  rw [hround, Nat.div_mul_cancel hunits]

/-- The magnitude above a number of the same binade is still in the binade, or ends it. -/
theorem add_spacing_le {k : Nat} (hunits : spacing units ∣ units) (hk : 2 ^ (k - 52) = spacing units)
    (hlt : units < 2 ^ (k + 1)) : units + spacing units ≤ 2 ^ (k + 1) := by
  have hpow : spacing units ∣ 2 ^ (k + 1) := hk ▸ Nat.pow_dvd_pow 2 (by omega)
  obtain ⟨m, hm⟩ := hunits
  obtain ⟨n, hn⟩ := hpow
  have hmn : m < n := Nat.lt_of_mul_lt_mul_left (a := spacing units) (by rw [← hm, ← hn]; exact hlt)
  calc units + spacing units = spacing units * (m + 1) := by rw [Nat.mul_succ, ← hm]
    _ ≤ spacing units * n := Nat.mul_le_mul_left _ hmn
    _ = 2 ^ (k + 1) := hn.symm

/-- **What is at most half a gap above a magnitude rounds to it.** -/
theorem roundUnits_of_above (hpos : 0 < units) (hden : 0 < den) (hunits : spacing units ∣ units)
    (hnum : num = units * den + rest) (hrest : Reaches units 2 rest den) : roundUnits num den = units := by
  have hwithin := hrest.within
  have hgap : 0 < spacing units * den := Nat.mul_pos (spacing_pos units) hden
  rw [Nat.mul_assoc] at hwithin
  have hlow : 2 ^ units.log2 ≤ units := Nat.log2_self_le (by omega)
  have hself : 2 ^ (units.log2 - 52) = spacing units := (spacing_of_bounds hlow Nat.lt_log2_self).symm
  have hbinade : spacing (num / den) = spacing units := by
    rw [← hself]
    refine spacing_of_bounds (Nat.le_trans hlow ?_) ?_
    · exact (Nat.le_div_iff_mul_le hden).2 (by omega)
    · refine (Nat.div_lt_iff_lt_mul hden).2 (Nat.lt_of_lt_of_le (m := (units + spacing units) * den) ?_ ?_)
      · rw [Nat.add_mul]
        omega
      · exact Nat.mul_le_mul_right den (add_spacing_le hunits hself Nat.lt_log2_self)
  refine roundUnits_of_spacing hden hunits hbinade (by omega) (by omega) fun hties => hrest.even ?_
  rw [Nat.mul_assoc]
  omega

/-- A power of two with gaps around it is an even number of halves of the gap above it. -/
theorem roundUnits_of_below_pow {k : Nat} (hk : 53 ≤ k) (hden : 0 < den) (hnum : num + rest = 2 ^ k * den)
    (hpos : num < 2 ^ k * den) (hrest : 4 * rest ≤ 2 ^ (k - 52) * den) : roundUnits num den = 2 ^ k := by
  obtain ⟨j, rfl⟩ : ∃ j, k = j + 53 := ⟨k - 53, by omega⟩
  have hstep : (2 : Nat) ^ (j + 53 - 52) = 2 * 2 ^ j := by rw [show j + 53 - 52 = j + 1 by omega, pow_succ']
  have hsplit : (2 : Nat) ^ (j + 53) = 2 ^ 53 * 2 ^ j := by rw [pow_add, Nat.mul_comm]
  have hhalf : (2 : Nat) ^ (j + 52) = 2 ^ 52 * 2 ^ j := by rw [pow_add, Nat.mul_comm]
  have hden' : 0 < den * 2 ^ j := Nat.mul_pos hden (Nat.two_pow_pos j)
  rw [hstep] at hrest
  have hwhole : 2 ^ (j + 53) * den = 2 ^ 53 * (den * 2 ^ j) := by rw [hsplit]; ring
  have hparts : 2 * 2 ^ j * den = 2 * (den * 2 ^ j) := by ring
  rw [hwhole] at hnum hpos
  rw [hparts] at hrest
  have hbinade : spacing (num / den) = 2 ^ j := by
    have := spacing_of_bounds (u := num / den) (k := j + 52) ?_ ?_
    · rwa [show j + 52 - 52 = j by omega] at this
    · refine (Nat.le_div_iff_mul_le hden).2 ?_
      calc 2 ^ (j + 52) * den = 2 ^ 52 * (den * 2 ^ j) := by rw [hhalf]; ring
        _ ≤ num := by omega
    · refine (Nat.div_lt_iff_lt_mul hden).2 ?_
      rw [hwhole]
      exact hpos
  have hround : roundHalfEven num (den * 2 ^ j) = 2 ^ 53 := by
    refine roundHalfEven_eq hden' (by omega) (by omega) fun _ => by norm_num
  rw [roundUnits, hbinade]
  show roundHalfEven num (den * 2 ^ j) * 2 ^ j = 2 ^ (j + 53)
  rw [hround, hsplit]

theorem Reaches.of_below (hden : 0 < den) (h : Reaches units (quartersBelow units) rest den) :
    Reaches units 2 rest den := by
  have hgap : 0 < spacing units * den := Nat.mul_pos (spacing_pos units) hden
  obtain hone | htwo : quartersBelow units = 1 ∨ quartersBelow units = 2 := by unfold quartersBelow; split <;> simp
  · have hwithin := h.within
    rw [hone, Nat.mul_assoc] at hwithin
    constructor <;> rw [Nat.mul_assoc] <;> omega
  · exact htwo ▸ h

/-- A magnitude with a quotient of the binade below within half a gap of it is the power of two between both. -/
theorem eq_pow_of_below (hpos : 0 < units) (hden : 0 < den) (hunits : spacing units ∣ units)
    (hnum : num + rest = units * den) (hrest : Reaches units 2 rest den) (hlt : num < 2 ^ units.log2 * den) :
    units = 2 ^ units.log2 := by
  have hgap : 0 < spacing units * den := Nat.mul_pos (spacing_pos units) hden
  have hlow : 2 ^ units.log2 ≤ units := Nat.log2_self_le (by omega)
  have hself : 2 ^ (units.log2 - 52) = spacing units := (spacing_of_bounds hlow Nat.lt_log2_self).symm
  have hwithin := hrest.within
  rw [Nat.mul_assoc] at hwithin
  by_contra hne
  have hdvd : spacing units ∣ 2 ^ units.log2 := hself ▸ Nat.pow_dvd_pow 2 (by omega)
  have hle : 2 ^ units.log2 + spacing units ≤ units := by
    obtain ⟨d, hd⟩ := Nat.dvd_sub hunits hdvd
    have hd0 : d ≠ 0 := by
      rintro rfl
      omega
    have := Nat.le_mul_of_pos_right (spacing units) (Nat.pos_of_ne_zero hd0)
    omega
  have := Nat.mul_le_mul_right den hle
  rw [Nat.add_mul] at this
  omega

/-- Just below a magnitude without gaps around it there are no gaps either. -/
theorem spacing_of_below (hpos : 0 < units) (hone : spacing units = 1) (hnum : num + rest = units * den)
    (hrest : Reaches units 2 rest den) (hlt : num < units * den) : spacing (num / den) = 1 := by
  have hwithin := hrest.within
  have hlow : 2 ^ units.log2 ≤ units := Nat.log2_self_le (by omega)
  have hself := spacing_of_bounds hlow Nat.lt_log2_self
  rw [hone] at hwithin hself
  have hlast : num / den = units - 1 := by
    refine Nat.div_eq_of_lt_le ?_ ?_
    · rw [Nat.sub_mul]
      omega
    · rw [Nat.sub_add_cancel hpos]
      exact hlt
  have hlog : (units - 1).log2 ≤ units.log2 := by
    rw [Nat.log2_eq_log_two, Nat.log2_eq_log_two]
    exact Nat.log_mono_right (Nat.sub_le _ _)
  have hsmall : units.log2 - 52 = 0 := by
    by_contra hne
    have := Nat.one_lt_two_pow hne
    omega
  rw [hlast, spacing, show (units - 1).log2 - 52 = 0 by omega]

/-- **What is at most half a gap below a magnitude rounds to it**, or at most a quarter of the gap above it where the
magnitude is a power of two. -/
theorem roundUnits_of_below (hpos : 0 < units) (hden : 0 < den) (hunits : spacing units ∣ units)
    (hnum : num + rest = units * den) (hrest : Reaches units (quartersBelow units) rest den) :
    roundUnits num den = units := by
  have hgap : 0 < spacing units * den := Nat.mul_pos (spacing_pos units) hden
  have hlow : 2 ^ units.log2 ≤ units := Nat.log2_self_le (by omega)
  have hself : 2 ^ (units.log2 - 52) = spacing units := (spacing_of_bounds hlow Nat.lt_log2_self).symm
  have htwo := hrest.of_below hden
  have hwithin := htwo.within
  rw [Nat.mul_assoc] at hwithin
  have hround (hspacing : spacing (num / den) = spacing units) : roundUnits num den = units := by
    refine roundUnits_of_spacing hden hunits hspacing (by omega) (by omega) fun hties => htwo.even ?_
    rw [Nat.mul_assoc]
    omega
  by_cases hbinade : 2 ^ units.log2 * den ≤ num
  · refine hround ?_
    rw [← hself]
    refine spacing_of_bounds ((Nat.le_div_iff_mul_le hden).2 hbinade) ((Nat.div_lt_iff_lt_mul hden).2 ?_)
    exact Nat.lt_of_le_of_lt (by omega) (Nat.mul_lt_mul_of_pos_right Nat.lt_log2_self hden)
  · have hlt : num < 2 ^ units.log2 * den := Nat.lt_of_not_le hbinade
    have hpow := eq_pow_of_below hpos hden hunits hnum htwo hlt
    by_cases hwide : 1 < spacing units
    · have hquarter : quartersBelow units = 1 := by
        rw [quartersBelow, if_pos]
        rw [Bool.and_eq_true, decide_eq_true_eq, decide_eq_true_eq, Nat.pow_eq]
        exact ⟨hpow, hwide⟩
      have hk : 53 ≤ units.log2 := by
        by_contra hk
        rw [← hself, show units.log2 - 52 = 0 by omega] at hwide
        omega
      have hquarters := hrest.within
      rw [hquarter, Nat.one_mul, ← hself] at hquarters
      rw [hpow] at hnum
      rw [roundUnits_of_below_pow hk hden hnum hlt hquarters]
      exact hpow.symm
    · have hone : spacing units = 1 := by
        have := spacing_pos units
        omega
      exact hround ((spacing_of_below hpos hone hnum htwo (hpow ▸ hlt)).trans hone.symm)

/-! ## What is far away -/

/-- A quotient is not rounded to below a power of two that it reaches. -/
theorem pow_log2_le_roundUnits (hnum : num / den ≠ 0) : 2 ^ (num / den).log2 ≤ roundUnits num den := by
  have hdvd : spacing (num / den) ∣ 2 ^ (num / den).log2 := by
    rw [spacing, Nat.pow_eq]
    exact Nat.pow_dvd_pow 2 (Nat.sub_le _ _)
  obtain ⟨m, hm⟩ := hdvd
  have hwhole : m ≤ num / (den * spacing (num / den)) := by
    rw [← Nat.div_div_eq_div_mul, Nat.le_div_iff_mul_le (spacing_pos _), Nat.mul_comm, ← hm]
    exact Nat.log2_self_le hnum
  have hround : num / (den * spacing (num / den)) ≤ roundHalfEven num (den * spacing (num / den)) := by
    rw [roundHalfEven]
    split
    · omega
    · split <;> omega
  calc 2 ^ (num / den).log2 = m * spacing (num / den) := by rw [hm, Nat.mul_comm]
    _ ≤ roundUnits num den := Nat.mul_le_mul_right _ (Nat.le_trans hwhole hround)

/-- What is less than half of the least magnitude rounds to zero. -/
theorem roundUnits_eq_zero (h : 2 * num < den) : roundUnits num den = 0 := by
  have hzero : num / den = 0 := Nat.div_eq_of_lt (by omega)
  have hround : roundHalfEven num den = 0 := by
    rw [roundHalfEven, Nat.mod_eq_of_lt (by omega), if_pos h, hzero]
  rw [roundUnits, hzero]
  show roundHalfEven num (den * 1) * 1 = 0
  rw [Nat.mul_one, Nat.mul_one, hround]

theorem ofUnits_congr {num' den' : Nat} (negative : Bool) (h : roundUnits num den = roundUnits num' den') :
    ofUnits negative num den = ofUnits negative num' den' := by
  simp only [ofUnits, h]

/-- A rounded magnitude that is known. -/
theorem ofUnits_eq {negative : Bool} (h : roundUnits num den = units) (representable : Representable units) :
    ofUnits negative num den = .finite negative units representable := by
  subst h
  exact dif_pos representable.1

/-- One whole and the first magnitude that is too large are powers of two. -/
theorem exists_unit_eq : ∃ k n, k + 1024 ≤ n ∧ unit = 2 ^ k ∧ limit = 2 ^ n := ⟨1074, 2098, by decide +kernel⟩

theorem unit_pos : 0 < unit := by
  obtain ⟨k, _, _, hunit, _⟩ := exists_unit_eq
  rw [hunit]
  exact Nat.two_pow_pos k

/-- What is not below the limit is rounded to an infinity. -/
theorem ofRatio_of_large (negative : Bool) (hden : 0 < den) (h : limit * den ≤ num * unit) :
    ofRatio negative num den = .infinity negative := by
  have hquotient : limit ≤ num * unit / den := (Nat.le_div_iff_mul_le hden).2 h
  obtain ⟨_, k, _, _, hk⟩ := exists_unit_eq
  have hne : num * unit / den ≠ 0 := by
    have := Nat.two_pow_pos k
    omega
  have hlog : k ≤ (num * unit / den).log2 := (Nat.le_log2 hne).2 (hk ▸ hquotient)
  rw [ofRatio, ofUnits, dif_neg]
  rw [Nat.not_lt, hk]
  exact Nat.le_trans (Nat.pow_le_pow_right (by decide) hlog) (pow_log2_le_roundUnits hne)

theorem ofRatio_of_small (negative : Bool) (h : 2 * (num * unit) < den) :
    ofRatio negative num den = ofRatio negative 0 1 := by
  have hzero : 2 * (0 * unit) < 1 := by rw [Nat.zero_mul]; exact Nat.one_pos
  exact ofUnits_congr negative ((roundUnits_eq_zero h).trans (roundUnits_eq_zero hzero).symm)

/-! ## Decimals -/

theorem ofRatio_mul_right (negative : Bool) (num den : Nat) {t : Nat} (ht : 0 < t) :
    ofRatio negative (num * t) (den * t) = ofRatio negative num den := by
  refine ofUnits_congr negative ?_
  rw [Nat.mul_right_comm, roundUnits_mul_right _ _ ht]

/-- The double nearest to `digits · 10 ^ exponent`. -/
def ofDecimal (negative : Bool) (digits : Nat) (exponent : Int) : Binary64 :=
  ofRatio negative (digits * Nat.pow 10 exponent.toNat) (Nat.pow 10 (-exponent).toNat)

/-- The exponent may be split into a power in front and one below. -/
theorem ofDecimal_sub (negative : Bool) (digits a b : Nat) :
    ofDecimal negative digits (a - b) = ofRatio negative (digits * 10 ^ a) (10 ^ b) := by
  have ha : a = ((a : Int) - b).toNat + min a b := by omega
  have hb : b = (-((a : Int) - b)).toNat + min a b := by omega
  have hpow : 0 < 10 ^ min a b := Nat.pow_pos (by decide)
  rw [ofDecimal, ← ofRatio_mul_right _ _ _ hpow, Nat.mul_assoc, Nat.pow_eq, Nat.pow_eq, ← Nat.pow_add, ← Nat.pow_add,
    ← ha,
    ← hb]

theorem ofDecimal_mul_pow (negative : Bool) (digits k : Nat) (exponent : Int) :
    ofDecimal negative (digits * 10 ^ k) exponent = ofDecimal negative digits (exponent + k) := by
  obtain ⟨a, b, rfl⟩ : ∃ a b : Nat, exponent = a - b := ⟨exponent.toNat, (-exponent).toNat, by omega⟩
  rw [show (a : Int) - b + k = ((a + k : Nat) : Int) - b by omega, ofDecimal_sub, ofDecimal_sub, Nat.mul_assoc,
    Nat.pow_add,
    Nat.mul_comm (10 ^ k)]

end Binary64

end BoundSql
