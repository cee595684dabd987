import Mathlib.Algebra.Order.Field.Basic
import Mathlib.Data.Rat.Cast.Order
import SparsePolynomial.Proofs.Binary64.Exact

/-!
Contract: finite binary64 numbers as rational numbers.

Owns:
- `rational`, the number that a finite one stands for, and `epsilon`, the tolerance as such;
- `ExactSum` and `ExactProduct`, operations whose result is finite and not rounded;
- `negligible_iff_abs_rational_le`: the tolerance compares rational numbers.

Does not own: by how much an operation rounds (`Proofs.Binary64.Rounding`).
-/

set_option autoImplicit false

namespace SparsePolynomial.Binary64

/-- The rational number that a finite number is. -/
def rational (x : Float) : ℚ := (value x : ℚ) / unitsPerOne

/-- The tolerance as a rational number. -/
def epsilon : ℚ := rational Coefficient.tolerance

/-! ## Values -/

theorem unitsPerOne_cast_ne_zero : (unitsPerOne : ℚ) ≠ 0 :=
  Nat.cast_ne_zero.mpr (Nat.ne_of_gt unitsPerOne_pos)

theorem rational_zero : rational 0.0 = 0 := by
  rw [rational, value_zero, Int.cast_zero, zero_div]

theorem abs_rational (x : Float) : |rational x| = (units (rank x) : ℚ) / unitsPerOne := by
  rw [rational, abs_div, Nat.abs_cast, ← Int.cast_abs, ← natAbs_value, Nat.cast_natAbs]

theorem abs_rational_le_iff (x y : Float) : |rational x| ≤ |rational y| ↔ rank x ≤ rank y := by
  have positive : (0 : ℚ) < unitsPerOne := Nat.cast_pos.mpr unitsPerOne_pos
  rw [abs_rational, abs_rational, div_le_div_iff_of_pos_right positive, Nat.cast_le, ← not_lt,
    units_lt_units_iff, not_lt]

/-! ## The tolerance -/

theorem epsilon_nonneg : 0 ≤ epsilon := by
  have nonneg : 0 ≤ value Coefficient.tolerance := by decide
  exact div_nonneg (Int.cast_nonneg nonneg) (Nat.cast_nonneg _)

theorem negligible_iff_abs_rational_le (c : Float) :
    Coefficient.Negligible c ↔ |rational c| ≤ epsilon := by
  rw [negligible_iff, toleranceRank, ← abs_rational_le_iff]
  change |rational c| ≤ |epsilon| ↔ _
  rw [abs_of_nonneg epsilon_nonneg]

/-! ## Operations that do not round -/

/-- The sum of two numbers is finite and is not rounded. -/
def ExactSum (x y : Float) : Prop := IsFinite (x + y) ∧ rational (x + y) = rational x + rational y

/-- The product of two numbers is finite and is not rounded. -/
def ExactProduct (x y : Float) : Prop :=
  IsFinite (x * y) ∧ rational (x * y) = rational x * rational y

theorem exactSum_iff (x y : Float) :
    ExactSum x y ↔ IsFinite (x + y) ∧ value (x + y) = value x + value y := by
  unfold ExactSum rational
  apply and_congr_right'
  rw [← add_div, div_left_inj' unitsPerOne_cast_ne_zero]
  exact_mod_cast Iff.rfl

theorem exactProduct_iff (x y : Float) :
    ExactProduct x y ↔ IsFinite (x * y) ∧ value (x * y) * unitsPerOne = value x * value y := by
  unfold ExactProduct rational
  apply and_congr_right'
  rw [div_mul_div_comm, div_eq_div_iff unitsPerOne_cast_ne_zero
    (mul_ne_zero unitsPerOne_cast_ne_zero unitsPerOne_cast_ne_zero), ← mul_assoc,
    mul_left_inj' unitsPerOne_cast_ne_zero]
  exact_mod_cast Iff.rfl

instance (x y : Float) : Decidable (ExactSum x y) := decidable_of_iff _ (exactSum_iff x y).symm

instance (x y : Float) : Decidable (ExactProduct x y) :=
  decidable_of_iff _ (exactProduct_iff x y).symm

end SparsePolynomial.Binary64
