import BoundSql.Number.Binary64
/-!
# Shortest decimal of a double

The reals that round to a given double form an interval around it, with its ends included when the significand is
even.  Among the decimals of that interval the ones with the fewest digits are wanted, and of these the nearest.  On
the grid of a given digit count only the two neighbours of the double itself matter.

* `Decimal.onGrid?` : the nearer neighbour, on one grid, that still rounds to the double.
* `Decimal.shortest` : the first grid, from one digit to seventeen, that has such a neighbour.
-/

namespace BoundSql

/-- The decimal `digits · 10 ^ exponent`. -/
structure Decimal where
  digits : Nat
  exponent : Int
  deriving DecidableEq

namespace Decimal

/-- Which neighbour is taken when both are equally near. -/
inductive Tie where
  | awayFromZero
  | toEven
  deriving DecidableEq

/-- Count of decimal digits; none for zero. -/
def digitCount (n : Nat) : Nat := if h : n = 0 then 0 else digitCount (n / 10) + 1
termination_by n
decreasing_by omega

/-- Count of steps in which `num`, times ten at each, first reaches `goal`; at most `fuel`. -/
def stepsToReach (goal : Nat) : Nat → Nat → Nat
  | 0, _ => 0
  | fuel + 1, num => if goal ≤ num then 0 else stepsToReach goal fuel (num * 10) + 1

/-- Exponent of the leading decimal digit of a positive magnitude; the least one is above `10 ^ (-324)`. -/
def leadingExponent (units : Nat) : Int :=
  if Binary64.unit ≤ units then (digitCount (units / Binary64.unit) : Int) - 1
  else -(stepsToReach Binary64.unit 324 units : Nat)

/-- Multiple of `10 ^ grid` that is nearest to the magnitude among those that round to it. -/
def onGrid? (tie : Tie) (units : Nat) (grid : Int) : Option Nat :=
  let scale := Nat.pow 10 (-grid).toNat
  let step := Binary64.unit * Nat.pow 10 grid.toNat
  let below := units * scale / step
  let rest := units * scale % step
  let gap := Binary64.spacing units
  let even := units / gap % 2 == 0
  -- distances count quarters of the gap, which halves below a power of two
  let reach := fun (quarters distance : Nat) =>
    if even then 4 * distance ≤ quarters * gap * scale else 4 * distance < quarters * gap * scale
  let low := reach (if units = Nat.pow 2 units.log2 && 1 < gap then 1 else 2) rest
  let high := reach 2 (step - rest)
  let nearer := if 2 * rest < step then below else if step < 2 * rest then below + 1 else
    match tie with
    | .awayFromZero => below + 1
    | .toEven => below + below % 2
  if low then some (if high then nearer else below) else if high then some (below + 1) else none

/-- Trailing zeros moved from the digits into the exponent. -/
def normalize (d : Decimal) : Decimal :=
  if h : d.digits ≠ 0 ∧ d.digits % 10 = 0 then normalize ⟨d.digits / 10, d.exponent + 1⟩ else d
termination_by d.digits
decreasing_by omega

/-- Decimal with the fewest digits that rounds to a positive magnitude; seventeen digits always suffice. -/
def shortest (tie : Tie) (units : Nat) : Decimal :=
  let lead := leadingExponent units
  let found := (List.range 17).findSome? fun (n : Nat) => (onGrid? tie units (lead - n)).map (Decimal.mk · (lead - n))
  normalize (found.getD ⟨units, -1074⟩)

end Decimal

end BoundSql
