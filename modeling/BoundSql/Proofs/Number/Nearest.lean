import BoundSql.Proofs.Number.Rounding
import Mathlib.Algebra.Order.Field.Rat
import Mathlib.Tactic.Positivity

/-!
# The nearest double

Rounding takes one of the two neighbours on the grid of a quotient's binade, and no magnitude that a double can have lies
between these (`le_or_le_of_dvd`). So no magnitude is nearer to the quotient than the one that it rounds to
(`roundUnits_nearest`), and one that is as near leaves it the even significand (`roundUnits_even`). With signs and as
rational numbers this says that a quotient, and so a decimal, is rounded to the nearest double (`ofRatio_isNearest`,
`ofDecimal_isNearest`).

* `IsNearest.le`, `IsNearest.ge` : rounding never passes a double.
* `IsNearest.value?_eq` : what is the value of a double is rounded to itself.
* `IsNearest.exists_int` : an integer up to `2 ^ 63` is rounded to an integer.
-/

namespace BoundSql

namespace Binary64

variable {num den units : Nat}

/-! ## Neighbours on the grid -/

/-- The grid of a magnitude is part of the grid of a smaller one. -/
theorem spacing_dvd_spacing {u v : Nat} (h : u ≤ v) : spacing u ∣ spacing v := by
  have hlog : u.log2 ≤ v.log2 := by
    rw [Nat.log2_eq_log_two, Nat.log2_eq_log_two]
    exact Nat.log_mono_right h
  simp only [spacing, Nat.pow_eq]
  exact Nat.pow_dvd_pow 2 (by omega)

theorem spacing_dvd_pow_log2 (u : Nat) : spacing u ∣ 2 ^ u.log2 := by
  rw [spacing, Nat.pow_eq]
  exact Nat.pow_dvd_pow 2 (Nat.sub_le _ _)

/-- A magnitude that is not above a number is not above the last one of the number's grid. -/
theorem le_of_dvd {n : Nat} (hunits : spacing units ∣ units) (h : units ≤ n) : units ≤ n / spacing n * spacing n := by
  have hlast {m : Nat} (hdvd : spacing n ∣ m) (hm : m ≤ n) : m ≤ n / spacing n * spacing n := by
    obtain ⟨k, rfl⟩ := hdvd
    rw [Nat.mul_comm]
    exact Nat.mul_le_mul_right _ ((Nat.le_div_iff_mul_le (spacing_pos n)).2 (by rwa [Nat.mul_comm]))
  rcases Nat.eq_zero_or_pos units with h0 | h0
  · omega
  · have hn : 2 ^ n.log2 ≤ n := Nat.log2_self_le (by omega)
    by_cases hbinade : 2 ^ n.log2 ≤ units
    · have hlog : n.log2 = units.log2 := by
        refine ((Nat.log2_eq_iff (by omega)).2 ⟨hbinade, ?_⟩).symm
        exact Nat.lt_of_le_of_lt h Nat.lt_log2_self
      have hgrid : spacing n = spacing units := by rw [spacing, spacing, hlog]
      exact hlast (hgrid ▸ hunits) h
    · have := hlast (spacing_dvd_pow_log2 n) hn
      omega

/-- A magnitude above a number is not below the next one of the number's grid. -/
theorem le_of_lt_of_dvd {n : Nat} (hunits : spacing units ∣ units) (h : n < units) :
    n / spacing n * spacing n + spacing n ≤ units := by
  obtain ⟨k, hk⟩ := (spacing_dvd_spacing h.le).trans hunits
  have hlt : n / spacing n < k := (Nat.div_lt_iff_lt_mul (spacing_pos n)).2 (by rw [Nat.mul_comm, ← hk]; exact h)
  calc n / spacing n * spacing n + spacing n = (n / spacing n + 1) * spacing n := (Nat.succ_mul _ _).symm
    _ ≤ k * spacing n := Nat.mul_le_mul_right _ hlt
    _ = units := by rw [hk, Nat.mul_comm]

/-- **No magnitude lies between the neighbours** of a quotient on the grid of its binade. -/
theorem le_or_le_of_dvd (num den : Nat) (hunits : spacing units ∣ units) {step : Nat}
    (hstep : step = den * spacing (num / den)) :
    units * den ≤ num / step * step ∨ num / step * step + step ≤ units * den := by
  have hlast : num / step * step = num / den / spacing (num / den) * spacing (num / den) * den := by
    rw [hstep, Nat.div_div_eq_div_mul, Nat.mul_comm den, Nat.mul_assoc]
  rw [hlast]
  rcases Nat.lt_or_ge (num / den) units with h | h
  · right
    have := Nat.mul_le_mul_right den (le_of_lt_of_dvd hunits h)
    rwa [Nat.add_mul, Nat.mul_comm (spacing _) den, ← hstep] at this
  · left
    exact Nat.mul_le_mul_right den (le_of_dvd hunits h)

/-! ## The neighbour that is taken -/

/-- Rounding to a whole number goes to the nearer neighbour, and to an even one in the middle. -/
theorem roundHalfEven_cases (num step : Nat) :
    (roundHalfEven num step = num / step ∧ 2 * (num % step) ≤ step ∨
      roundHalfEven num step = num / step + 1 ∧ step ≤ 2 * (num % step)) ∧
    (2 * (num % step) = step → roundHalfEven num step % 2 = 0) := by
  rw [roundHalfEven]
  split
  · omega
  · split <;> omega

theorem roundUnits_mul (num den : Nat) :
    roundUnits num den * den = roundHalfEven num (den * spacing (num / den)) * (den * spacing (num / den)) := by
  rw [roundUnits, Nat.mul_assoc, Nat.mul_comm den]

/-- A significand that is rounded to an even number is even, also if it is carried into the next binade. -/
theorem even_of_scaled {significand shift : Nat} (hle : significand ≤ 2 ^ 53)
    (hlow : shift = 0 ∨ 2 ^ 52 ≤ significand) (heven : significand % 2 = 0) :
    significand * 2 ^ shift / spacing (significand * 2 ^ shift) % 2 = 0 := by
  have hpow : 0 < 2 ^ shift := Nat.two_pow_pos shift
  rcases Nat.lt_or_eq_of_le hle with hlt | rfl
  · have hspacing : spacing (significand * 2 ^ shift) = 2 ^ shift := by
      rcases hlow with rfl | hlow
      · have hlog : significand.log2 ≤ 52 := by
          rcases Nat.eq_zero_or_pos significand with h0 | h0
          · simp [h0]
          · have := (Nat.log2_lt (n := significand) (k := 53) (by omega)).2 hlt
            omega
        rw [pow_zero, Nat.mul_one, spacing, show significand.log2 - 52 = 0 by omega, Nat.pow_eq, pow_zero]
      · have hbounds := spacing_of_bounds (u := significand * 2 ^ shift) (k := 52 + shift) ?_ ?_
        · rwa [Nat.add_sub_cancel_left] at hbounds
        · rw [pow_add]
          exact Nat.mul_le_mul_right _ hlow
        · rw [show 52 + shift + 1 = 53 + shift by omega, pow_add]
          exact Nat.mul_lt_mul_of_pos_right hlt hpow
    rw [hspacing, Nat.mul_div_cancel _ hpow]
    exact heven
  · rw [← pow_add, spacing, Nat.log2_two_pow, Nat.pow_eq, Nat.pow_div (by omega) (by decide),
      show 53 + shift - (53 + shift - 52) = 52 by omega]

/-- What a quotient is rounded to has at most 53 bits, and as many unless the grid is that of the units. -/
theorem significand_bounds (num den : Nat) :
    roundHalfEven num (den * spacing (num / den)) ≤ 2 ^ 53 ∧
      ((num / den).log2 - 52 = 0 ∨ 2 ^ 52 ≤ roundHalfEven num (den * spacing (num / den))) := by
  have hpow : 0 < 2 ^ ((num / den).log2 - 52) := Nat.two_pow_pos _
  have hupper : num / den < 2 ^ 53 * 2 ^ ((num / den).log2 - 52) := by
    rw [← pow_add]
    exact Nat.lt_of_lt_of_le Nat.lt_log2_self (Nat.pow_le_pow_right (by decide) (by omega))
  have hwhole : num / (den * spacing (num / den)) < 2 ^ 53 := by
    rw [← Nat.div_div_eq_div_mul, spacing, Nat.pow_eq]
    exact (Nat.div_lt_iff_lt_mul hpow).2 hupper
  have hcases := (roundHalfEven_cases num (den * spacing (num / den))).1
  refine ⟨by omega, ?_⟩
  by_cases hwide : (num / den).log2 - 52 = 0
  · exact Or.inl hwide
  · right
    have hne : num / den ≠ 0 := by
      intro h
      rw [h] at hwide
      exact hwide (by decide)
    have hlower : 2 ^ 52 ≤ num / (den * spacing (num / den)) := by
      rw [← Nat.div_div_eq_div_mul, Nat.le_div_iff_mul_le (spacing_pos _), spacing, Nat.pow_eq, ← pow_add,
        show 52 + ((num / den).log2 - 52) = (num / den).log2 by omega]
      exact Nat.log2_self_le hne
    omega

/-- **A quotient is rounded to the nearer of its neighbours**: no magnitude lies between these, and from the middle an even
significand is taken. -/
theorem exists_neighbours (num : Nat) (hden : 0 < den) : ∃ low rest step : Nat, low + rest = num ∧ rest < step ∧
    (∀ units, spacing units ∣ units → units * den ≤ low ∨ low + step ≤ units * den) ∧
    (roundUnits num den * den = low ∧ 2 * rest ≤ step ∨
      roundUnits num den * den = low + step ∧ step ≤ 2 * rest) ∧
    (2 * rest = step → roundUnits num den / spacing (roundUnits num den) % 2 = 0) := by
  refine ⟨num / (den * spacing (num / den)) * (den * spacing (num / den)), num % (den * spacing (num / den)),
    den * spacing (num / den), Nat.div_add_mod' _ _, Nat.mod_lt _ (Nat.mul_pos hden (spacing_pos _)),
    fun units hunits => le_or_le_of_dvd num den hunits rfl, ?_, fun hmiddle => ?_⟩
  · rw [roundUnits_mul]
    rcases (roundHalfEven_cases num (den * spacing (num / den))).1 with ⟨hround, hrest⟩ | ⟨hround, hrest⟩
    · exact Or.inl ⟨by rw [hround], hrest⟩
    · exact Or.inr ⟨by rw [hround, Nat.succ_mul], hrest⟩
  · obtain ⟨hle, hlow⟩ := significand_bounds num den
    exact even_of_scaled hle hlow ((roundHalfEven_cases num _).2 hmiddle)

/-- No magnitude is nearer to a quotient than the one that it rounds to. -/
theorem roundUnits_nearest (num : Nat) (hden : 0 < den) (hunits : spacing units ∣ units) :
    ((roundUnits num den * den : Nat) - num : Int).natAbs ≤ ((units * den : Nat) - num : Int).natAbs := by
  obtain ⟨low, rest, step, hsplit, hlt, hsides, hround, _⟩ := exists_neighbours num hden
  have := hsides units hunits
  omega

/-- A magnitude that is as near as the one that a quotient rounds to leaves it the even significand. -/
theorem roundUnits_even (num : Nat) (hden : 0 < den) (hunits : spacing units ∣ units)
    (hne : units ≠ roundUnits num den)
    (htie : ((roundUnits num den * den : Nat) - num : Int).natAbs = ((units * den : Nat) - num : Int).natAbs) :
    roundUnits num den / spacing (roundUnits num den) % 2 = 0 := by
  obtain ⟨low, rest, step, hsplit, hlt, hsides, hround, heven⟩ := exists_neighbours num hden
  have hside := hsides units hunits
  have hother : units * den ≠ roundUnits num den * den := fun h => hne (Nat.eq_of_mul_eq_mul_right hden h)
  refine heven ?_
  omega

/-! ## Exact values -/

/-- A number with a sign in front. -/
def signed (negative : Bool) (q : ℚ) : ℚ := if negative then -q else q

@[simp] theorem signed_zero (negative : Bool) : signed negative 0 = 0 := by
  cases negative
  · rfl
  · exact neg_zero

/-- The rational number that a finite double denotes. -/
def value? : Binary64 → Option ℚ
  | .finite negative units _ => some (signed negative (units / unit))
  | _ => none

/-- The number as which a double is compared when others are rounded: an infinity counts as the first power of two that
is too large to be finite. -/
def extended? : Binary64 → Option ℚ
  | .nan => none
  | .infinity negative => some (signed negative (limit / unit))
  | .finite negative units _ => some (signed negative (units / unit))

/-- Whether the significand is even; that of an infinity is the significand of a power of two. -/
def evenSignificand : Binary64 → Bool
  | .finite _ units _ => units / spacing units % 2 = 0
  | _ => true

/-- A double that a number is rounded to: none is nearer to the number, and if another one is as near then the
significand is even. -/
def IsNearest (x : Binary64) (q : ℚ) : Prop :=
  ∃ v, x.extended? = some v ∧ ∀ (y : Binary64) (w : ℚ), y.extended? = some w →
    |v - q| < |w - q| ∨ |v - q| = |w - q| ∧ (w = v ∨ x.evenSignificand)

theorem cast_unit_pos : (0 : ℚ) < unit := Nat.cast_pos.2 unit_pos

theorem abs_signed_sub (negative : Bool) (a b : ℚ) : |signed negative a - signed negative b| = |a - b| := by
  cases negative
  · rfl
  · show |-a - -b| = |a - b|
    rw [neg_sub_neg, abs_sub_comm]

theorem abs_signed (negative : Bool) (a : ℚ) : |signed negative a| = |a| := by
  have h := abs_signed_sub negative a 0
  rwa [signed_zero, sub_zero, sub_zero] at h

/-- A double of the other sign is not nearer than zero. -/
theorem abs_signed_sub_of_ne {s t : Bool} (h : s ≠ t) {a b : ℚ} (ha : 0 ≤ a) (hb : 0 ≤ b) :
    |signed s a - signed t b| = a + b := by
  cases s <;> cases t
  · exact absurd rfl h
  · show |a - -b| = a + b
    rw [sub_neg_eq_add, abs_of_nonneg (by linarith)]
  · show |-a - b| = a + b
    rw [abs_of_nonpos (by linarith)]
    ring
  · exact absurd rfl h

/-- A distance of magnitudes, counted in parts of a unit. -/
theorem abs_sub_eq (u num : Nat) (hden : 0 < den) :
    |(u / unit : ℚ) - num / den| = (((u * den : Nat) - (num * unit : Nat) : Int).natAbs : ℚ) / (unit * den) := by
  have hden' : (0 : ℚ) < den := by exact_mod_cast hden
  have hunit := cast_unit_pos
  rw [div_sub_div _ _ hunit.ne' hden'.ne', mul_comm (unit : ℚ) num, abs_div, abs_of_pos (mul_pos hunit hden'),
    Nat.cast_natAbs]
  push_cast
  rfl

theorem spacing_dvd_limit : spacing limit ∣ limit := by
  obtain ⟨_, k, _, _, hk⟩ := exists_unit_eq
  have := spacing_dvd_pow_log2 (2 ^ k)
  rwa [Nat.log2_two_pow, ← hk] at this

/-- A magnitude as it is compared. -/
theorem exists_units {y : Binary64} {w : ℚ} (h : y.extended? = some w) :
    ∃ s units, spacing units ∣ units ∧ units ≤ limit ∧ w = signed s (units / unit) := by
  cases y with
  | nan => cases h
  | infinity s => exact ⟨s, limit, spacing_dvd_limit, Nat.le_refl _, (Option.some.inj h).symm⟩
  | finite s units hrep => exact ⟨s, units, hrep.2, hrep.1.le, (Option.some.inj h).symm⟩

/-- The magnitude that a quotient is rounded to, as it is compared: not above the first that is too large. -/
theorem exists_rounded (negative : Bool) (num : Nat) (hden : 0 < den) :
    ∃ m : Nat, (ofRatio negative num den).extended? = some (signed negative (m / unit)) ∧
      ∀ units, spacing units ∣ units → units ≤ limit →
        ((m * den : Nat) - (num * unit : Nat) : Int).natAbs ≤
          ((units * den : Nat) - (num * unit : Nat) : Int).natAbs ∧
        (units ≠ m → ((m * den : Nat) - (num * unit : Nat) : Int).natAbs =
          ((units * den : Nat) - (num * unit : Nat) : Int).natAbs → (ofRatio negative num den).evenSignificand) := by
  rw [ofRatio, ofUnits]
  split
  next hfinite =>
    refine ⟨roundUnits (num * unit) den, rfl, fun units hunits _ => ⟨?_, fun hne htie => ?_⟩⟩
    · exact roundUnits_nearest _ hden hunits
    · exact decide_eq_true (roundUnits_even _ hden hunits hne htie)
  next hlarge =>
    refine ⟨limit, rfl, fun units hunits hle => ⟨?_, fun _ _ => rfl⟩⟩
    have hlimit := roundUnits_nearest (num * unit) hden spacing_dvd_limit
    have hnearest := roundUnits_nearest (num * unit) hden hunits
    have hrounded := Nat.mul_le_mul_right den (Nat.le_of_not_lt hlarge)
    have hunder := Nat.mul_le_mul_right den hle
    omega

/-- No magnitude is nearer than the rounded one, and one that is as near leaves it the even significand. -/
theorem exists_nearest_units (negative : Bool) (num : Nat) (hden : 0 < den) :
    ∃ m : Nat, (ofRatio negative num den).extended? = some (signed negative (m / unit)) ∧
      ∀ units, spacing units ∣ units → units ≤ limit →
        |(m / unit : ℚ) - num / den| < |(units / unit : ℚ) - num / den| ∨
        |(m / unit : ℚ) - num / den| = |(units / unit : ℚ) - num / den| ∧
          (units = m ∨ (ofRatio negative num den).evenSignificand) := by
  have hparts : (0 : ℚ) < unit * den := mul_pos cast_unit_pos (by exact_mod_cast hden)
  obtain ⟨m, hm, hnear⟩ := exists_rounded negative num hden
  refine ⟨m, hm, fun units hunits hle => ?_⟩
  obtain ⟨hdist, heven⟩ := hnear units hunits hle
  rw [abs_sub_eq m num hden, abs_sub_eq units num hden]
  rcases Nat.lt_or_eq_of_le hdist with hlt | htie
  · left
    exact div_lt_div_of_pos_right (by exact_mod_cast hlt) hparts
  · right
    refine ⟨by rw [htie], ?_⟩
    by_cases hne : units = m
    · exact Or.inl hne
    · exact Or.inr (heven hne htie)

/-- **A quotient is rounded to the nearest double.** -/
theorem ofRatio_isNearest (negative : Bool) (num : Nat) (hden : 0 < den) :
    (ofRatio negative num den).IsNearest (signed negative (num / den)) := by
  obtain ⟨m, hm, hnear⟩ := exists_nearest_units negative num hden
  refine ⟨_, hm, fun y w hy => ?_⟩
  obtain ⟨s, units, hunits, hle, rfl⟩ := exists_units hy
  have hunit := cast_unit_pos
  rw [abs_signed_sub]
  generalize unit = c at hnear hunit ⊢
  by_cases hs : s = negative
  · subst hs
    rw [abs_signed_sub]
    rcases hnear units hunits hle with hlt | ⟨htie, heq | heven⟩
    · exact Or.inl hlt
    · exact Or.inr ⟨htie, Or.inl (by rw [heq])⟩
    · exact Or.inr ⟨htie, Or.inr heven⟩
  · -- a double of the other sign is at least as far away as zero
    have hu : (0 : ℚ) ≤ units / c := div_nonneg (Nat.cast_nonneg units) hunit.le
    have hq : (0 : ℚ) ≤ num / den := div_nonneg (Nat.cast_nonneg num) (Nat.cast_nonneg den)
    have hzero := hnear 0 (dvd_zero _) (Nat.zero_le _)
    rw [abs_signed_sub_of_ne hs hu hq]
    rw [Nat.cast_zero, zero_div, zero_sub, abs_neg, abs_of_nonneg hq] at hzero
    rcases hzero with hlt | ⟨htie, heven⟩
    · left
      linarith
    · rcases hu.lt_or_eq with hpos | h0
      · left
        linarith
      · rw [← h0, zero_add]
        refine Or.inr ⟨htie, ?_⟩
        rcases heven with rfl | heven
        · left
          rw [Nat.cast_zero, zero_div, signed_zero, signed_zero]
        · exact Or.inr heven

/-- **A decimal is rounded to the nearest double.** -/
theorem ofDecimal_isNearest (negative : Bool) (digits : Nat) (exponent : Int) :
    (ofDecimal negative digits exponent).IsNearest (signed negative (digits * 10 ^ exponent)) := by
  obtain ⟨a, b, rfl⟩ : ∃ a b : Nat, exponent = a - b := ⟨exponent.toNat, (-exponent).toNat, by omega⟩
  have hnearest := ofRatio_isNearest negative (digits * 10 ^ a) (Nat.pow_pos (n := b) (show 0 < 10 by decide))
  rw [ofDecimal_sub, zpow_sub₀ (by norm_num), zpow_natCast, zpow_natCast, ← mul_div_assoc]
  exact_mod_cast hnearest

/-! ## Numbers that are doubles -/

variable {x y : Binary64} {q v w : ℚ}

theorem extended?_of_value? (h : x.value? = some v) : x.extended? = some v := by
  cases x with
  | finite => exact h
  | nan => cases h
  | infinity => cases h

/-- The values of doubles are below the magnitude as which an infinity is compared. -/
theorem abs_lt_of_value? (h : x.value? = some v) : |v| < limit / unit := by
  cases x with
  | finite negative units hrep =>
    obtain rfl : signed negative (units / unit) = v := Option.some.inj h
    have hlt : (units : ℚ) < limit := by exact_mod_cast hrep.1
    have hunit := cast_unit_pos
    generalize unit = c at hunit ⊢
    rw [abs_signed, abs_of_nonneg (div_nonneg (Nat.cast_nonneg units) hunit.le)]
    exact div_lt_div_of_pos_right hlt hunit
  | nan => cases h
  | infinity => cases h

theorem value?_of_extended? (h : x.extended? = some v) (hv : |v| < limit / unit) : x.value? = some v := by
  cases x with
  | finite => exact h
  | nan => cases h
  | infinity negative =>
    obtain rfl : signed negative (limit / unit) = v := Option.some.inj h
    rw [abs_signed] at hv
    exact absurd (le_abs_self _) (not_le.2 hv)

/-- No double is nearer. -/
theorem IsNearest.abs_sub_le (h : x.IsNearest q) (hv : x.extended? = some v) (hw : y.extended? = some w) :
    |v - q| ≤ |w - q| := by
  obtain ⟨v', hv', hnear⟩ := h
  obtain rfl : v = v' := Option.some.inj (hv.symm.trans hv')
  rcases hnear y w hw with hlt | ⟨heq, _⟩
  · exact hlt.le
  · exact heq.le

/-- A double below a number is not above the double that the number is rounded to. -/
theorem IsNearest.le (h : x.IsNearest q) (hv : x.extended? = some v) (hw : y.extended? = some w) (hle : w ≤ q) :
    w ≤ v := by
  by_contra hlt
  have hdistance := h.abs_sub_le hv hw
  rw [abs_of_nonpos (by linarith), abs_of_nonpos (by linarith)] at hdistance
  linarith

/-- A double above a number is not below the double that the number is rounded to. -/
theorem IsNearest.ge (h : x.IsNearest q) (hv : x.extended? = some v) (hw : y.extended? = some w) (hle : q ≤ w) :
    v ≤ w := by
  by_contra hlt
  have hdistance := h.abs_sub_le hv hw
  rw [abs_of_nonneg (by linarith), abs_of_nonneg (by linarith)] at hdistance
  linarith

/-- **The value of a double is rounded to itself.** -/
theorem IsNearest.value?_eq (h : x.IsNearest q) (hy : y.value? = some q) : x.value? = some q := by
  obtain ⟨v, hv, _⟩ := id h
  have hle := h.le hv (extended?_of_value? hy) le_rfl
  have hge := h.ge hv (extended?_of_value? hy) le_rfl
  obtain rfl : q = v := le_antisymm hle hge
  exact value?_of_extended? hv (abs_lt_of_value? hy)

/-! ## Integers -/

/-- An integer with a sign in front. -/
theorem signed_natCast (negative : Bool) (n : Nat) :
    signed negative n = ((if negative then -(n : Int) else n : Int) : ℚ) := by
  cases negative
  · exact (Int.cast_natCast n).symm
  · simp [signed]

/-- Whole numbers of units. -/
theorem mul_unit_div (n : Nat) : ((n * unit : Nat) / unit : ℚ) = n := by
  rw [Nat.cast_mul, mul_div_assoc, div_self cast_unit_pos.ne', mul_one]

/-- A significand of at most `2 ^ 53` with zeros behind it is the value of a double. -/
theorem exists_value?_eq (negative : Bool) {significand shift : Nat} (hsignificand : significand ≤ 2 ^ 53)
    (hshift : shift < 971) : ∃ y : Binary64, y.value? = some (signed negative (significand * 2 ^ shift : Nat)) := by
  obtain ⟨k, n, hn, hunit, hlimit⟩ := exists_unit_eq
  have hscaled : significand * 2 ^ shift * unit = significand * 2 ^ (shift + k) := by
    rw [hunit, pow_add, Nat.mul_assoc]
  have hrep : Representable (significand * 2 ^ shift * unit) := by
    rw [hscaled]
    refine ⟨?_, spacing_dvd_scaled hsignificand⟩
    rw [hlimit]
    calc significand * 2 ^ (shift + k) ≤ 2 ^ 53 * 2 ^ (shift + k) := Nat.mul_le_mul_right _ hsignificand
      _ = 2 ^ (53 + (shift + k)) := (pow_add 2 _ _).symm
      _ < 2 ^ n := Nat.pow_lt_pow_right (by decide) (by omega)
  exact ⟨.finite negative _ hrep, congrArg some (congrArg (signed negative) (mul_unit_div _))⟩

/-- An integer up to `2 ^ 53` is the value of a double. -/
theorem exists_value?_eq_int {n : Int} (h : n.natAbs ≤ 2 ^ 53) : ∃ y : Binary64, y.value? = some (n : ℚ) := by
  obtain ⟨y, hy⟩ := exists_value?_eq (decide (n < 0)) h (show 0 < 971 by decide)
  refine ⟨y, hy.trans (congrArg some ?_)⟩
  rw [pow_zero, Nat.mul_one, signed_natCast]
  refine congrArg Int.cast ?_
  by_cases hn : n < 0
  · rw [if_pos (decide_eq_true hn)]
    omega
  · rw [if_neg (by simpa using hn)]
    omega

theorem exists_value?_eq_pow (negative : Bool) {k : Nat} (hk : k < 971) :
    ∃ y : Binary64, y.value? = some (signed negative (2 ^ k)) := by
  obtain ⟨y, hy⟩ := exists_value?_eq negative (show 1 ≤ 2 ^ 53 by decide) hk
  refine ⟨y, hy.trans (congrArg some (congrArg (signed negative) ?_))⟩
  rw [Nat.one_mul, Nat.cast_pow]
  rfl

/-- A double of `2 ^ 53` or more is an integer. -/
theorem exists_int_of_le (hv : x.value? = some v) (hle : 2 ^ 53 ≤ |v|) : ∃ m : Int, v = m := by
  cases x with
  | finite negative units hrep =>
    obtain rfl : signed negative (units / unit) = v := Option.some.inj hv
    obtain ⟨k, n, _, hunit, _⟩ := exists_unit_eq
    have hpos := cast_unit_pos
    have hlarge : 2 ^ 53 * unit ≤ units := by
      rw [abs_signed, abs_of_nonneg (div_nonneg (Nat.cast_nonneg units) hpos.le), le_div_iff₀ hpos] at hle
      exact_mod_cast hle
    have hgrid : unit ∣ spacing (2 ^ 53 * unit) := by
      rw [hunit, ← pow_add, spacing, Nat.log2_two_pow, Nat.pow_eq]
      exact Nat.pow_dvd_pow 2 (by omega)
    obtain ⟨t, ht⟩ := hgrid.trans ((spacing_dvd_spacing hlarge).trans hrep.2)
    exact ⟨_, by rw [ht, Nat.mul_comm, mul_unit_div, signed_natCast]⟩
  | nan => cases hv
  | infinity => cases hv

/-- What lies between two powers of two that are doubles is rounded to a double between them. -/
theorem IsNearest.abs_bounds (h : x.IsNearest q) {j k : Nat} (hj : j < 971) (hk : k < 971) (hlow : 2 ^ j ≤ |q|)
    (hhigh : |q| ≤ 2 ^ k) : ∃ v, x.value? = some v ∧ 2 ^ j ≤ |v| ∧ |v| ≤ 2 ^ k := by
  have hpow {k : Nat} (hk : k < 971) (s : Bool) : ∃ y : Binary64, y.extended? = some (signed s (2 ^ k)) := by
    obtain ⟨y, hy⟩ := exists_value?_eq_pow s hk
    exact ⟨y, extended?_of_value? hy⟩
  have hfinite : (2 : ℚ) ^ k < limit / unit := by
    obtain ⟨y, hy⟩ := exists_value?_eq_pow false hk
    have hlt := abs_lt_of_value? hy
    rwa [abs_signed, abs_of_pos (pow_pos two_pos k)] at hlt
  obtain ⟨v, hv, _⟩ := id h
  have habs : 2 ^ j ≤ |v| ∧ |v| ≤ 2 ^ k := by
    rcases le_total 0 q with hq | hq
    · rw [abs_of_nonneg hq] at hlow hhigh
      obtain ⟨_, hy⟩ := hpow hj false
      obtain ⟨_, hz⟩ := hpow hk false
      have hle : (2 : ℚ) ^ j ≤ v := h.le hv hy hlow
      have hge : v ≤ (2 : ℚ) ^ k := h.ge hv hz hhigh
      rw [abs_of_nonneg (le_trans (by positivity) hle)]
      exact ⟨hle, hge⟩
    · rw [abs_of_nonpos hq] at hlow hhigh
      obtain ⟨_, hy⟩ := hpow hj true
      obtain ⟨_, hz⟩ := hpow hk true
      have hge : v ≤ -(2 : ℚ) ^ j := h.ge hv hy (le_neg_of_le_neg hlow)
      have hle : -(2 : ℚ) ^ k ≤ v := h.le hv hz (neg_le.1 hhigh)
      have hpos : (0 : ℚ) < 2 ^ j := by positivity
      rw [abs_of_nonpos (by linarith)]
      exact ⟨le_neg_of_le_neg hge, neg_le.1 hle⟩
  exact ⟨v, value?_of_extended? hv (lt_of_le_of_lt habs.2 hfinite), habs⟩

/-- **An integer up to `2 ^ 63` is rounded to such an integer.** -/
theorem IsNearest.exists_int {n : Int} (h : x.IsNearest n) (hn : n.natAbs ≤ 2 ^ 63) :
    ∃ m : Int, m.natAbs ≤ 2 ^ 63 ∧ x.value? = some (m : ℚ) := by
  by_cases hsmall : n.natAbs ≤ 2 ^ 53
  · obtain ⟨y, hy⟩ := exists_value?_eq_int hsmall
    exact ⟨n, hn, h.value?_eq hy⟩
  · have habs (m : Int) : |(m : ℚ)| = (m.natAbs : ℚ) := by
      rw [Nat.cast_natAbs, Int.cast_abs]
    obtain ⟨v, hv, hlow, hhigh⟩ := h.abs_bounds (j := 53) (k := 63) (by decide) (by decide)
      (by rw [habs]; exact_mod_cast (Nat.lt_of_not_le hsmall).le) (by rw [habs]; exact_mod_cast hn)
    obtain ⟨m, rfl⟩ := exists_int_of_le hv hlow
    rw [habs] at hhigh
    exact ⟨m, by exact_mod_cast hhigh, hv⟩

end Binary64

end BoundSql
