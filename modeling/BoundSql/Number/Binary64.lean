/-!
# Double-precision numbers

A finite double is a sign and a whole number of units of `2 ^ (-1074)`, the least positive magnitude.  A magnitude
needs at most 53 significant bits, so it is a multiple of the spacing of its own binade.  Nothing here goes through
machine arithmetic: sums, quotients and comparisons are exact on natural numbers and then rounded once.

* `Binary64.ofRatio` rounds a quotient of naturals to the nearest double, a tie to the even significand.
* `Binary64.spacing_dvd_roundUnits` : what it returns needs no more than 53 significant bits.
-/

namespace BoundSql

namespace Binary64

/-- Units in one whole: `1 = unit · 2 ^ (-1074)`. -/
def unit : Nat := Nat.pow 2 1074

/-- First magnitude that is too large to be finite. -/
def limit : Nat := unit * Nat.pow 2 1024

/-- Distance to the next larger double: a significand has 53 bits, the leading one of weight `log2`. -/
def spacing (units : Nat) : Nat := Nat.pow 2 (units.log2 - 52)

/-- A magnitude that a finite double can have. -/
def Representable (units : Nat) : Prop := units < limit ∧ spacing units ∣ units

/-- Quotient rounded to the nearest natural number, a half going to the even neighbour. -/
def roundHalfEven (num den : Nat) : Nat :=
  let whole := num / den
  let rest := 2 * (num % den)
  if rest < den then whole else if den < rest then whole + 1 else whole + whole % 2

/-- Nearest multiple of the spacing around `num / den`. -/
def roundUnits (num den : Nat) : Nat :=
  let step := spacing (num / den)
  roundHalfEven num (den * step) * step

theorem roundHalfEven_le (num den : Nat) : roundHalfEven num den ≤ num / den + 1 := by
  unfold roundHalfEven
  dsimp only
  split
  · omega
  · split <;> omega

/-- A significand of at most 53 bits, or its carry, scaled by a power of two is a multiple of its spacing. -/
theorem spacing_dvd_scaled {significand shift : Nat} (h : significand ≤ Nat.pow 2 53) :
    spacing (significand * Nat.pow 2 shift) ∣ significand * Nat.pow 2 shift := by
  simp only [spacing, Nat.pow_eq] at h ⊢
  rcases Nat.lt_or_eq_of_le h with h | h
  · rcases Nat.eq_zero_or_pos significand with h0 | h0
    · simp [h0]
    · have hlt : significand * 2 ^ shift < 2 ^ (53 + shift) := by
        rw [Nat.pow_add]
        exact Nat.mul_lt_mul_of_pos_right h (Nat.two_pow_pos shift)
      have hne : significand * 2 ^ shift ≠ 0 := Nat.mul_ne_zero (by omega) (Nat.ne_of_gt (Nat.two_pow_pos shift))
      have hlog := (Nat.log2_lt hne).2 hlt
      exact Nat.dvd_trans (Nat.pow_dvd_pow 2 (by omega)) (Nat.dvd_mul_left _ _)
  · have hpow : significand * 2 ^ shift = 2 ^ (53 + shift) := by rw [h, Nat.pow_add]
    rw [hpow, Nat.log2_two_pow]
    exact Nat.pow_dvd_pow 2 (by omega)

theorem spacing_dvd_roundUnits (num den : Nat) : spacing (roundUnits num den) ∣ roundUnits num den := by
  refine spacing_dvd_scaled (Nat.le_trans (roundHalfEven_le _ _) ?_)
  have hlt : num / den < 2 ^ (53 + ((num / den).log2 - 52)) :=
    Nat.lt_of_lt_of_le Nat.lt_log2_self (Nat.pow_le_pow_right (by decide) (by omega))
  rw [Nat.pow_add] at hlt
  have := Nat.div_lt_of_lt_mul (Nat.mul_comm _ _ ▸ hlt)
  rw [← Nat.div_div_eq_div_mul]
  simp only [spacing, Nat.pow_eq]
  omega

end Binary64

/-- A double: not a number, an infinity of either sign, or a sign and a representable magnitude. -/
inductive Binary64 where
  | nan
  | infinity (negative : Bool)
  | finite (negative : Bool) (units : Nat) (representable : Binary64.Representable units)
  deriving DecidableEq

namespace Binary64

/-- The double of a sign and a rounded magnitude; an infinity when the magnitude is too large. -/
def ofUnits (negative : Bool) (num den : Nat) : Binary64 :=
  if h : roundUnits num den < limit then .finite negative (roundUnits num den) ⟨h, spacing_dvd_roundUnits num den⟩
  else .infinity negative

/-- The double nearest to `num / den`. -/
def ofRatio (negative : Bool) (num den : Nat) : Binary64 := ofUnits negative (num * unit) den

/-- The double nearest to an integer. -/
def ofInt (n : Int) : Binary64 := ofRatio (n < 0) n.natAbs 1

/-- Zero without a sign. -/
def zero : Binary64 := .finite false 0 ⟨by decide +kernel, by decide⟩

instance : Inhabited Binary64 := ⟨zero⟩

/-- The sign is flipped, also that of zero. -/
def neg : Binary64 → Binary64
  | .nan => .nan
  | .infinity s => .infinity !s
  | .finite s u h => .finite (!s) u h

/-- Neither an infinity nor a missing number. -/
def isFinite : Binary64 → Bool
  | .finite .. => true
  | _ => false

/-- Product, rounded once. -/
def mul : Binary64 → Binary64 → Binary64
  | .nan, _ | _, .nan => .nan
  | .infinity s, .infinity t => .infinity (s != t)
  | .infinity s, .finite t u _ | .finite s u _, .infinity t => if u = 0 then .nan else .infinity (s != t)
  | .finite s u _, .finite t v _ => ofUnits (s != t) (u * v) unit

/-- Quotient, rounded once. -/
def div : Binary64 → Binary64 → Binary64
  | .nan, _ | _, .nan | .infinity _, .infinity _ => .nan
  | .infinity s, .finite t .. => .infinity (s != t)
  | .finite s .., .infinity t => .finite (s != t) 0 zeroRepresentable
  | .finite s u _, .finite t v _ =>
    if v = 0 then (if u = 0 then .nan else .infinity (s != t)) else ofRatio (s != t) u v
where
  zeroRepresentable : Representable 0 := ⟨by decide +kernel, by decide⟩

/-- Numeric equality: the two zeros are equal, and a missing number equals nothing. -/
def sameNumber : Binary64 → Binary64 → Bool
  | .infinity s, .infinity t => s == t
  | .finite s u _, .finite t v _ => u == v && (s == t || u == 0)
  | _, _ => false

/-- The integer that a finite double without a fractional part stands for. -/
def toInt? : Binary64 → Option Int
  | .finite negative units _ =>
    if units % unit = 0 then some (if negative then -(units / unit : Nat) else (units / unit : Nat)) else none
  | _ => none

end Binary64

end BoundSql
