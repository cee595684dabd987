import SparsePolynomial.Proofs.Binary64.Negation

/-!
Contract: numbers that are the negations of each other, except that zeros may have any sign.

Owns:
- sums with a zero of either sign;
- `Opposite`, with `Opposite.add`: opposite numbers added to opposite numbers give opposite sums;
- `Opposite.foldl_add`: opposite numbers stay opposite along two sums of opposite numbers.

The sign of a zero cannot be kept out of this: numbers that cancel give a positive zero, and so do
their negations.
-/

set_option autoImplicit false

namespace SparsePolynomial.Binary64

/-! ## Zeros -/

theorem eq_zero_or_eq_neg_zero {z : Float} (zero : rank z = 0) : z = 0.0 ∨ z = -0.0 := by
  rw [← ofParts_sign_rank z, zero]
  cases sign z with
  | positive => exact .inl (by decide)
  | negative => exact .inr (by decide)

/-- A zero of either sign is neutral for whatever is not a zero itself. -/
theorem add_of_rank_eq_zero {z x : Float} (zero : rank z = 0) (positive : 0 < rank x) :
    z + x = x := by
  rcases eq_zero_or_eq_neg_zero zero with rfl | rfl
  · exact zero_add_of_rank_pos positive
  · have flipped : (0.0 : Float) + -x = -x := zero_add_of_rank_pos (by rwa [rank_neg])
    have nonzero : 0 < rank ((0.0 : Float) + -x) := by rwa [flipped, rank_neg]
    have negated := sum_neg_neg nonzero
    rwa [flipped, neg_twice] at negated

theorem rank_add_of_zeros {y z : Float} (left : rank y = 0) (right : rank z = 0) :
    rank (y + z) = 0 := by
  rcases eq_zero_or_eq_neg_zero left with rfl | rfl <;>
    rcases eq_zero_or_eq_neg_zero right with rfl | rfl <;> decide

/-! ## Opposite numbers -/

/-- The second number is the negation of the first, or both are zeros. -/
def Opposite (x y : Float) : Prop := y = -x ∨ rank x = 0 ∧ rank y = 0

theorem opposite_neg (x : Float) : Opposite x (-x) := .inl rfl

theorem opposite_zero : Opposite 0.0 0.0 := .inr ⟨by decide, by decide⟩

namespace Opposite

theorem rank_eq {x y : Float} (opposite : Opposite x y) : rank y = rank x := by
  rcases opposite with rfl | ⟨left, right⟩
  · exact rank_neg x
  · rw [left, right]

theorem eq_neg {x y : Float} (opposite : Opposite x y) (positive : 0 < rank x) : y = -x :=
  opposite.resolve_right fun zeros => Nat.ne_of_gt positive zeros.1

/-- Opposite numbers are negligible together. -/
theorem negligible_iff {x y : Float} (opposite : Opposite x y) :
    Coefficient.Negligible y ↔ Coefficient.Negligible x := by
  rw [Binary64.negligible_iff, Binary64.negligible_iff, opposite.rank_eq]

/-- Where one of the two numbers is a zero the other one is the sum. Where neither is, the sums are
negations of each other unless they are zeros. -/
theorem add {x y v w : Float} (first : Opposite x y) (second : Opposite v w) :
    Opposite (x + v) (y + w) := by
  rcases Nat.eq_zero_or_pos (rank x) with zero | positive
  · have otherZero : rank y = 0 := first.rank_eq.trans zero
    rcases Nat.eq_zero_or_pos (rank v) with addedZero | addedPositive
    · have otherAdded : rank w = 0 := second.rank_eq.trans addedZero
      exact .inr ⟨rank_add_of_zeros zero addedZero, rank_add_of_zeros otherZero otherAdded⟩
    · have otherAdded : 0 < rank w := second.rank_eq ▸ addedPositive
      rw [add_of_rank_eq_zero zero addedPositive, add_of_rank_eq_zero otherZero otherAdded]
      exact second
  · rcases Nat.eq_zero_or_pos (rank v) with addedZero | addedPositive
    · have otherAdded : rank w = 0 := second.rank_eq.trans addedZero
      have otherPositive : 0 < rank y := first.rank_eq ▸ positive
      rw [sum_comm x, sum_comm y, add_of_rank_eq_zero addedZero positive,
        add_of_rank_eq_zero otherAdded otherPositive]
      exact first
    · obtain rfl := first.eq_neg positive
      obtain rfl := second.eq_neg addedPositive
      rcases Nat.eq_zero_or_pos (rank (x + v)) with cancelled | kept
      · exact .inr ⟨cancelled, (rank_sum_neg_neg x v).trans cancelled⟩
      · exact .inl (sum_neg_neg kept)

/-- Sums that start at opposite numbers stay opposite, where the one adds numbers and the other adds
their negations. -/
theorem foldl_add {x y : Float} (opposite : Opposite x y) (values : List Float) :
    Opposite (values.foldl (fun total value => total + value) x)
      (values.foldl (fun total value => total + -value) y) := by
  induction values generalizing x y with
  | nil => exact opposite
  | cons value values inductionHypothesis =>
      exact inductionHypothesis (opposite.add (opposite_neg value))

end Opposite

end SparsePolynomial.Binary64
