import SparsePolynomial.Binary64.Basic

/-!
Contract: the binary64 magnitude nearest to a quotient of natural numbers.

Owns:
- division rounded to the nearest integer, a half going to the even neighbour;
- `nearest`, the rank closest to a quotient, where a magnitude halfway between two ranks goes to
  the even one and a magnitude past the largest finite number goes to infinity.

Does not own: signs and the text of numbers.
-/

set_option autoImplicit false

namespace SparsePolynomial.Binary64

/-- The integer nearest to `dividend / divisor`; a half goes to the even neighbour. -/
def roundDiv (dividend divisor : Nat) : Nat :=
  let quotient := dividend / divisor
  let twice := 2 * (dividend % divisor)
  if twice < divisor ∨ (twice = divisor ∧ quotient % 2 = 0) then quotient else quotient + 1

/-- Rank nearest to `numerator / denominator`.

The quotient is counted in units of the least positive number. Past 53 binary digits the unit is
doubled until 53 remain; each doubling moves the rank by one binade, and a significand that rounds
up to two binades is the first rank of the next one. -/
def nearest (numerator denominator : Nat) : Nat :=
  let dividend := numerator * unitsPerOne
  let doublings := (dividend / denominator).log2 - 52
  min infinityRank (doublings * binade + roundDiv dividend (denominator * Nat.pow 2 doublings))

/-- A quotient without remainder is not moved. -/
theorem roundDiv_mul_self (quotient divisor : Nat) (positive : 0 < divisor) :
    roundDiv (quotient * divisor) divisor = quotient := by
  simp [roundDiv, Nat.mul_div_cancel _ positive, positive]

/-- Rounding depends on the quotient alone. -/
theorem roundDiv_mul_mul (dividend divisor factor : Nat) (positive : 0 < factor) :
    roundDiv (dividend * factor) (divisor * factor) = roundDiv dividend divisor := by
  have twice : 2 * (dividend * factor % (divisor * factor)) =
      2 * (dividend % divisor) * factor := by
    rw [Nat.mul_mod_mul_right, Nat.mul_assoc]
  simp only [roundDiv, Nat.mul_div_mul_right _ _ positive, twice,
    Nat.mul_lt_mul_right positive, Nat.mul_right_cancel_iff positive]

/-- The nearest rank depends on the quotient alone. -/
theorem nearest_mul_mul (numerator denominator factor : Nat) (positive : 0 < factor) :
    nearest (numerator * factor) (denominator * factor) = nearest numerator denominator := by
  have dividend : numerator * factor * unitsPerOne = numerator * unitsPerOne * factor :=
    Nat.mul_right_comm _ _ _
  have divisor (power : Nat) : denominator * factor * power = denominator * power * factor :=
    Nat.mul_right_comm _ _ _
  simp only [nearest, dividend, divisor, Nat.mul_div_mul_right _ _ positive,
    roundDiv_mul_mul _ _ _ positive]

private theorem log2_units_of_binade_le {r : Nat} (normal : binade ≤ r) :
    (units r).log2 - 52 = scale r := by
  have low : binade * Nat.pow 2 (scale r) ≤ units r := by
    unfold units significand
    exact Nat.mul_le_mul_right _ (by split <;> omega)
  have high : units r < 2 * binade * Nat.pow 2 (scale r) := by
    have below : r % binade < binade := Nat.mod_lt _ (by decide)
    unfold units significand
    exact Nat.mul_lt_mul_of_pos_right (by split <;> omega) (Nat.two_pow_pos _)
  have nonzero : units r ≠ 0 := by
    have positive : 0 < binade * Nat.pow 2 (scale r) :=
      Nat.mul_pos (by decide) (Nat.two_pow_pos _)
    omega
  have lowPower : 2 ^ (52 + scale r) ≤ units r := by
    rw [Nat.pow_add]
    exact low
  have highPower : units r < 2 ^ (53 + scale r) := by
    rw [Nat.pow_add]
    exact high
  have atLeast := (Nat.le_log2 nonzero).mpr lowPower
  have below := (Nat.log2_lt nonzero).mpr highPower
  omega

/-- A number is nearest to itself. -/
theorem nearest_units {r : Nat} (atMost : r ≤ infinityRank) :
    nearest (units r) unitsPerOne = r := by
  have quotient : units r * unitsPerOne / unitsPerOne = units r :=
    Nat.mul_div_cancel _ unitsPerOne_pos
  by_cases normal : binade ≤ r
  · have rounded : roundDiv (units r * unitsPerOne) (unitsPerOne * Nat.pow 2 (scale r)) =
        significand r := by
      have product : units r * unitsPerOne =
          significand r * (unitsPerOne * Nat.pow 2 (scale r)) := by
        rw [units, Nat.mul_assoc, Nat.mul_comm unitsPerOne]
      rw [product, roundDiv_mul_self]
      exact Nat.mul_pos unitsPerOne_pos (Nat.two_pow_pos _)
    simp only [nearest, quotient, log2_units_of_binade_le normal, rounded]
    have parts : binade * (r / binade) + r % binade = r := Nat.div_add_mod r binade
    have atLeastOne : 1 ≤ r / binade := (Nat.one_le_div_iff (by decide)).mpr normal
    have total : scale r * binade + significand r = r := by
      have split : (r / binade - 1) * binade + binade = binade * (r / binade) := by
        rw [← Nat.succ_mul, Nat.succ_eq_add_one, Nat.sub_add_cancel atLeastOne, Nat.mul_comm]
      simp only [scale, significand, Nat.not_lt.mpr normal, if_false]
      omega
    rw [total, Nat.min_eq_right atMost]
  · have subnormal : r < binade := Nat.lt_of_not_le normal
    have noScale : scale r = 0 := by simp [scale, Nat.div_eq_of_lt subnormal]
    have unitsEq : units r = r := by
      rw [units, noScale, significand, if_pos subnormal]
      exact Nat.mul_one r
    have noDoublings : r.log2 - 52 = 0 := by
      by_cases zero : r = 0
      · simp [zero]
      · have below : r.log2 < 52 := (Nat.log2_lt zero).mpr subnormal
        omega
    have rounded : roundDiv (r * unitsPerOne) (unitsPerOne * Nat.pow 2 0) = r := by
      have unit : unitsPerOne * Nat.pow 2 0 = unitsPerOne := Nat.mul_one _
      rw [unit, roundDiv_mul_self _ _ unitsPerOne_pos]
    rw [unitsEq] at quotient
    simp only [nearest, unitsEq, quotient, noDoublings, rounded]
    omega

end SparsePolynomial.Binary64
