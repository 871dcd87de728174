import BoundSql.Number.Shortest
import BoundSql.Proofs.Number.Rounding

/-!
# The shortest decimal of a double rounds to it

On every grid the neighbour that is taken rounds to the double (`ofDecimal_of_onGrid?`), and on the grid of seventeen
digits there is one (`exists_onGrid?`): a step of that grid is less than the gap between two doubles. So the shortest
decimal rounds to the double it was made from (`ofDecimal_shortest`).
-/

namespace BoundSql.Decimal

open Binary64 (Reaches Representable quartersBelow roundUnits roundUnits_of_above roundUnits_of_below spacing
  spacing_pos unit unit_pos ofDecimal ofDecimal_mul_pow ofUnits_eq)

variable {tie : Tie} {units : Nat} {grid : Int}

/-! ## One grid -/

/-- The test of a distance as it is made. -/
def Accepts (units quarters distance den : Nat) : Prop :=
  if units / spacing units % 2 == 0 then 4 * distance ≤ quarters * spacing units * den
  else 4 * distance < quarters * spacing units * den

instance (units quarters distance den : Nat) : Decidable (Accepts units quarters distance den) := by
  unfold Accepts
  infer_instance

theorem accepts_iff {quarters distance den : Nat} :
    Accepts units quarters distance den ↔ Reaches units quarters distance den := by
  unfold Accepts
  constructor
  · intro h
    split at h
    next heven => exact ⟨h, fun _ => by simpa using heven⟩
    next => exact ⟨h.le, fun heq => absurd heq h.ne⟩
  · rintro ⟨hwithin, heven⟩
    split
    next => exact hwithin
    next hodd =>
      rw [beq_iff_eq] at hodd
      exact Nat.lt_of_le_of_ne hwithin fun h => hodd (heven h)

/-- Step of a grid, where magnitudes are counted in parts of `scale`. -/
def step (grid : Int) : Nat := unit * Nat.pow 10 grid.toNat

/-- Parts of a unit in which a grid is counted. -/
def scale (grid : Int) : Nat := Nat.pow 10 (-grid).toNat

theorem step_pos (grid : Int) : 0 < step grid := by
  rw [step, Nat.pow_eq]
  exact Nat.mul_pos unit_pos (Nat.pow_pos (by decide))

theorem scale_pos (grid : Int) : 0 < scale grid := by
  rw [scale, Nat.pow_eq]
  exact Nat.pow_pos (by decide)

/-- Whether the neighbour below rounds to the double. -/
abbrev Low (units : Nat) (grid : Int) : Prop :=
  Accepts units (quartersBelow units) (units * scale grid % step grid) (scale grid)

/-- Whether the neighbour above rounds to the double. -/
abbrev High (units : Nat) (grid : Int) : Prop :=
  Accepts units 2 (step grid - units * scale grid % step grid) (scale grid)

/-- The nearer neighbour of a magnitude with the multiple `below` underneath, at a distance of `rest`. -/
def nearer (tie : Tie) (below rest step : Nat) : Nat :=
  if 2 * rest < step then below else if step < 2 * rest then below + 1 else
    match tie with
    | .awayFromZero => below + 1
    | .toEven => below + below % 2

theorem nearer_eq (tie : Tie) (below rest step : Nat) :
    nearer tie below rest step = below ∨ nearer tie below rest step = below + 1 := by
  unfold nearer
  split
  · exact .inl rfl
  · split
    · exact .inr rfl
    · cases tie with
      | awayFromZero => exact .inr rfl
      | toEven =>
        show below + below % 2 = below ∨ below + below % 2 = below + 1
        omega

theorem onGrid?_eq (tie : Tie) (units : Nat) (grid : Int) : onGrid? tie units grid =
    let below := units * scale grid / step grid
    if Low units grid then
      some (if High units grid then nearer tie below (units * scale grid % step grid) (step grid) else below)
    else if High units grid then some (below + 1) else none := by
  unfold onGrid? nearer
  rfl

/-- What is found on a grid is a neighbour that reaches the double. -/
theorem low_or_high_of_onGrid? {digits : Nat} (h : onGrid? tie units grid = some digits) :
    digits = units * scale grid / step grid ∧ Low units grid ∨
      digits = units * scale grid / step grid + 1 ∧ High units grid := by
  have hnearer := nearer_eq tie (units * scale grid / step grid) (units * scale grid % step grid) (step grid)
  rw [onGrid?_eq] at h
  by_cases hlow : Low units grid <;> by_cases hhigh : High units grid <;>
    simp only [hlow, hhigh, if_true, if_false, Option.some.injEq, reduceCtorEq, and_true] at h ⊢ <;>
    omega

/-- **A decimal found on a grid rounds to the double.** -/
theorem ofDecimal_of_onGrid? {digits : Nat} (negative : Bool) (hpos : 0 < units) (hrep : Representable units)
    (h : onGrid? tie units grid = some digits) : ofDecimal negative digits grid = .finite negative units hrep := by
  have hsplit : units * scale grid / step grid * step grid + units * scale grid % step grid = units * scale grid :=
    Nat.div_add_mod' _ _
  have hrest : units * scale grid % step grid < step grid := Nat.mod_lt _ (step_pos grid)
  have hnum : digits * Nat.pow 10 grid.toNat * unit = digits * step grid := by rw [step]; ring
  rw [ofDecimal, Binary64.ofRatio]
  refine ofUnits_eq ?_ hrep
  rw [hnum]
  obtain ⟨rfl, hlow⟩ | ⟨rfl, hhigh⟩ := low_or_high_of_onGrid? h
  · exact roundUnits_of_below hpos (scale_pos grid) hrep.2 hsplit (accepts_iff.1 hlow)
  · refine roundUnits_of_above hpos (scale_pos grid) hrep.2 ?_ (accepts_iff.1 hhigh)
    rw [Nat.add_mul]
    show _ = units * scale grid + _
    omega

/-! ## The leading digit -/

theorem pow_digitCount_le {n : Nat} (h : 0 < n) : 10 ^ (digitCount n - 1) ≤ n := by
  induction n using Nat.strongRecOn with
  | ind n ih =>
    rw [digitCount, dif_neg (by omega), Nat.add_sub_cancel]
    by_cases hten : n < 10
    · rw [Nat.div_eq_of_lt hten, digitCount, dif_pos rfl]
      exact h
    · have hcount : digitCount (n / 10) ≠ 0 := by
        rw [digitCount, dif_neg (by omega)]
        exact Nat.succ_ne_zero _
      have hle := ih (n / 10) (by omega) (by omega)
      have hpow : 10 ^ digitCount (n / 10) = 10 * 10 ^ (digitCount (n / 10) - 1) := by
        rw [← pow_succ', Nat.sub_add_cancel (Nat.pos_of_ne_zero hcount)]
      omega

theorem le_stepsToReach {goal : Nat} (fuel : Nat) {num : Nat} (h : goal ≤ num * 10 ^ fuel) :
    goal ≤ num * 10 ^ stepsToReach goal fuel num := by
  induction fuel generalizing num with
  | zero => exact h
  | succ fuel ih =>
    rw [stepsToReach]
    split
    next hle => exact Nat.le_trans hle (Nat.le_mul_of_pos_right _ (Nat.pow_pos (by decide)))
    next =>
      rw [pow_succ', ← Nat.mul_assoc]
      refine ih ?_
      rwa [pow_succ', ← Nat.mul_assoc] at h

/-- A positive magnitude is not below the power of ten of its leading digit. -/
theorem pow_leadingExponent_le (hpos : 0 < units) :
    unit * 10 ^ (leadingExponent units).toNat ≤ units * 10 ^ (-leadingExponent units).toNat := by
  have hunit := unit_pos
  rw [leadingExponent]
  split
  next hwhole =>
    have hquotient : 0 < units / unit := Nat.div_pos hwhole hunit
    have hcount : digitCount (units / unit) ≠ 0 := by
      rw [digitCount, dif_neg (by omega)]
      exact Nat.succ_ne_zero _
    have hle := pow_digitCount_le hquotient
    rw [show ((digitCount (units / unit) : Int) - 1).toNat = digitCount (units / unit) - 1 by omega,
      show (-((digitCount (units / unit) : Int) - 1)).toNat = 0 by omega, pow_zero, Nat.mul_one]
    calc unit * 10 ^ (digitCount (units / unit) - 1) ≤ unit * (units / unit) := Nat.mul_le_mul_left _ hle
      _ ≤ units := Nat.mul_div_le _ _
  next =>
    rw [Int.neg_neg, Int.toNat_natCast, show (-(stepsToReach unit 324 units : Int)).toNat = 0 by omega, pow_zero,
      Nat.mul_one]
    obtain ⟨fuel, hfuel, hreach⟩ : ∃ fuel, fuel = 324 ∧ unit ≤ 10 ^ fuel := ⟨324, rfl, by decide +kernel⟩
    rw [← hfuel]
    exact le_stepsToReach fuel (Nat.le_trans hreach (Nat.le_mul_of_pos_left _ hpos))

/-! ## The grid of seventeen digits -/

/-- A step of the grid of seventeen digits is at most that part of a magnitude. -/
theorem step_le (hpos : 0 < units) :
    step (leadingExponent units - 16) * 10 ^ 16 ≤ units * scale (leadingExponent units - 16) := by
  have hlead := pow_leadingExponent_le hpos
  generalize leadingExponent units = lead at hlead ⊢
  have hexponents : lead.toNat + (-(lead - 16)).toNat = (lead - 16).toNat + 16 + (-lead).toNat := by omega
  refine Nat.le_of_mul_le_mul_right (c := 10 ^ (-lead).toNat) ?_ (Nat.pow_pos (by decide))
  rw [step, scale, Nat.pow_eq, Nat.pow_eq]
  calc unit * 10 ^ (lead - 16).toNat * 10 ^ 16 * 10 ^ (-lead).toNat
      = unit * 10 ^ lead.toNat * 10 ^ (-(lead - 16)).toNat := by
        rw [Nat.mul_assoc unit (10 ^ lead.toNat), ← pow_add, hexponents, pow_add, pow_add]
        ring
    _ ≤ units * 10 ^ (-lead).toNat * 10 ^ (-(lead - 16)).toNat := Nat.mul_le_mul_right _ hlead
    _ = units * 10 ^ (-(lead - 16)).toNat * 10 ^ (-lead).toNat := by ring

/-- A significand has 53 bits. -/
theorem lt_pow_mul_spacing (units : Nat) : units < 2 ^ 53 * spacing units := by
  refine Nat.lt_of_lt_of_le Nat.lt_log2_self ?_
  rw [spacing, Nat.pow_eq, ← pow_add]
  exact Nat.pow_le_pow_right (by decide) (by omega)

/-- **On the grid of seventeen digits one of the neighbours rounds to the double.** -/
theorem exists_onGrid? (tie : Tie) (hpos : 0 < units) :
    ∃ digits, onGrid? tie units (leadingExponent units - 16) = some digits := by
  generalize hgrid : leadingExponent units - 16 = grid
  have hstep : step grid * 10 ^ 16 ≤ units * scale grid := hgrid ▸ step_le hpos
  have hrest : units * scale grid % step grid < step grid := Nat.mod_lt _ (step_pos grid)
  have hwidth : units * scale grid < 2 ^ 53 * (spacing units * scale grid) := by
    rw [← Nat.mul_assoc]
    exact Nat.mul_lt_mul_of_pos_right (lt_pow_mul_spacing units) (scale_pos grid)
  have heither : Low units grid ∨ High units grid := by
    rw [Low, High, accepts_iff, accepts_iff]
    by_cases hquarters : quartersBelow units = 2
    · by_cases hhalf : 2 * (units * scale grid % step grid) ≤ step grid
      · left
        rw [hquarters]
        constructor <;> rw [Nat.mul_assoc] <;> omega
      · right
        constructor <;> rw [Nat.mul_assoc] <;> omega
    · -- a power of two is half of what any magnitude of its binade is below, so the steps are half as wide
      have hpow : units = 2 ^ 52 * spacing units := by
        rw [quartersBelow] at hquarters
        split at hquarters
        next h =>
          rw [Bool.and_eq_true, decide_eq_true_eq, decide_eq_true_eq] at h
          have hlog : 52 ≤ units.log2 := by
            by_contra hlt
            have hone : spacing units = 1 := by rw [spacing, show units.log2 - 52 = 0 by omega, Nat.pow_eq, pow_zero]
            omega
          rw [spacing, Nat.pow_eq, ← pow_add, Nat.add_sub_cancel' hlog]
          exact h.1
        next => exact absurd rfl hquarters
      have hwhole : units * scale grid = 2 ^ 52 * (spacing units * scale grid) := by rw [← Nat.mul_assoc, ← hpow]
      right
      constructor <;> rw [Nat.mul_assoc] <;> omega
  rw [onGrid?_eq]
  obtain hlow | hhigh := heither
  · exact ⟨_, if_pos hlow⟩
  · by_cases hlow : Low units grid
    · exact ⟨_, if_pos hlow⟩
    · exact ⟨_, by rw [if_neg hlow, if_pos hhigh]⟩

/-! ## The fewest digits -/

theorem ofDecimal_normalize (negative : Bool) (d : Decimal) :
    ofDecimal negative (normalize d).digits (normalize d).exponent = ofDecimal negative d.digits d.exponent := by
  induction d using normalize.induct with
  | case1 d h ih =>
    have hdigits : d.digits = d.digits / 10 * 10 ^ 1 := by omega
    rw [normalize, dif_pos h, ih]
    conv_rhs => rw [hdigits, ofDecimal_mul_pow]
    rfl
  | case2 d h => rw [normalize, dif_neg h]

/-- **The shortest decimal of a double is a decimal that rounds to it.** -/
theorem ofDecimal_shortest (negative : Bool) (tie : Tie) (hpos : 0 < units) (hrep : Representable units) :
    ofDecimal negative (shortest tie units).digits (shortest tie units).exponent = .finite negative units hrep := by
  obtain ⟨digits, hdigits⟩ := exists_onGrid? tie hpos
  rw [shortest, ofDecimal_normalize]
  cases hfound : (List.range 17).findSome? fun (n : Nat) =>
      (onGrid? tie units (leadingExponent units - n)).map (Decimal.mk · (leadingExponent units - n)) with
  | none =>
    have hnone := List.findSome?_eq_none_iff.1 hfound 16 (by decide)
    rw [show ((16 : Nat) : Int) = 16 from rfl, hdigits] at hnone
    cases hnone
  | some d =>
    obtain ⟨n, -, hn⟩ := List.exists_of_findSome?_eq_some hfound
    obtain ⟨digits, hdigits, rfl⟩ := Option.map_eq_some_iff.1 hn
    exact ofDecimal_of_onGrid? negative hpos hrep hdigits

end BoundSql.Decimal
