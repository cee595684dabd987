import SparsePolynomial.Proofs.Binary64.Integer
import SparsePolynomial.Proofs.Binary64.Negation

/-!
Contract: how products behave under exchange, negation and multiplication by one, rounding included.

Owns:
- `product_comm`: the order of the two factors does not matter;
- `product_neg` and `neg_product`: negating a factor negates the product, zeros included, so
  `neg_product_neg`: negating both changes nothing;
- `product_one` and `product_neg_one`: one and minus one are exact factors of every number.

All of them hold for NaN and the infinities as well. A product takes its sign from the signs of the
factors and its magnitude from their magnitudes.
-/

set_option autoImplicit false

namespace SparsePolynomial.Binary64

open Float.Model (UnpackedFloat)
open Float.Model.UnpackedFloat (Sign)

/-! ## Unpacked numbers -/

private theorem mul_sign_comm (s t : Sign) : s * t = t * s := by
  cases s <;> cases t <;> rfl

private theorem mul_neg_sign (s t : Sign) : s * -t = -(s * t) := by
  cases s <;> cases t <;> rfl

private theorem mul_unpacked_comm (u v : UnpackedFloat) :
    u.mul .binary64 v = v.mul .binary64 u := by
  cases u <;> cases v <;>
    simp only [UnpackedFloat.mul, mul_sign_comm, Nat.mul_comm, Int.add_comm]

/-- Negating a factor negates the sign of the product and leaves its magnitude. -/
private theorem mul_unpacked_neg (u v : UnpackedFloat) :
    u.mul .binary64 v.neg = (u.mul .binary64 v).neg := by
  cases u <;> cases v <;>
    simp only [UnpackedFloat.mul, UnpackedFloat.neg, mul_neg_sign]
  case finite.finite s m e positive t n f positive' =>
    exact (neg_roundWithAccuracy (s * t) (m * n) (e + f) .exact).symm

/-! ## Numbers -/

theorem product_comm (x y : Float) : x * y = y * x := by
  rw [mul_eq_pack, mul_eq_pack, mul_unpacked_comm]

theorem product_neg (x y : Float) : x * -y = -(x * y) := by
  rw [mul_eq_pack, mul_eq_pack, unpacked_neg, mul_unpacked_neg, neg_pack]

theorem neg_product (x y : Float) : -x * y = -(x * y) := by
  rw [product_comm, product_neg, product_comm]

theorem neg_product_neg (x y : Float) : -x * -y = x * y := by
  rw [product_neg, neg_product, neg_twice]

/-- Finite numbers keep their value; the others, and zero, which has no sign in its value, are
looked at one by one. -/
theorem product_one (x : Float) : x * 1.0 = x := by
  rcases Nat.lt_trichotomy (rank x) infinityRank with finite | infinite | nan
  · by_cases zero : rank x = 0
    · rw [← ofParts_sign_rank x, zero]
      cases sign x <;> decide
    · have unchanged : value x * value 1.0 = value x * unitsPerOne := by
        rw [isInteger_one.2, one_mul]
      have product := value_mul finite isInteger_one.1 unchanged (representable_value finite)
      exact (eq_of_value product.2.symm (mt value_eq_zero.mp zero)).symm
  · rw [← ofParts_sign_rank x, infinite]
    cases sign x <;> decide
  · rw [← ofParts_sign_rank x, ofParts, unpacked_of_nan _ nan]
    decide

theorem product_neg_one (x : Float) : x * -1.0 = -x := by
  rw [product_neg, product_one]

end SparsePolynomial.Binary64
