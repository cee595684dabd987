import SparsePolynomial.Proofs.Binary64.Opposite
import SparsePolynomial.Proofs.Term.Product

/-!
Contract: normal forms of lists in which every term is negated.

Owns:
- `Opposite.keep`: what is kept of opposite numbers is negated, since neither keeps a zero;
- `opposite_total?`: the sums of coefficients and of their negations are opposite;
- `normalize_map_neg`: negating every term of any list negates its normal form to the bit.

On the way to a sum the two sides may pass through zeros of the same sign. What is added next makes
up for that, and a sum that ends in a zero is dropped on both sides.
-/

set_option autoImplicit false

namespace SparsePolynomial

open Binary64 (Opposite opposite_neg)

/-! ## Coefficients -/

theorem Binary64.Opposite.keep {x y : Float} (opposite : Opposite x y) :
    Coefficient.keep y = (Coefficient.keep x).map fun c => -c := by
  by_cases negligible : Coefficient.Negligible x
  · rw [Coefficient.keep_of_negligible negligible,
      Coefficient.keep_of_negligible (opposite.negligible_iff.mpr negligible)]
    rfl
  · have kept := mt opposite.negligible_iff.mp negligible
    have large := mt (Binary64.negligible_iff x).mpr negligible
    obtain rfl := opposite.eq_neg (Nat.zero_lt_of_lt (Nat.lt_of_not_le large))
    rw [Coefficient.keep_of_not_negligible negligible, Coefficient.keep_of_not_negligible kept]
    rfl

theorem Coefficient.opposite_total? (coefficients : List Float) :
    Option.Rel Opposite (total? coefficients) (total? (coefficients.map fun c => -c)) := by
  cases coefficients with
  | nil => exact .none
  | cons first rest =>
      have sums := (opposite_neg first).foldl_add rest
      rw [List.map_cons, total?, total?, List.foldl_map]
      exact .some sums

/-! ## Terms -/

namespace Term

theorem neg_twice (term : Term) : term.neg.neg = term := by
  rw [neg, neg, Binary64.neg_twice]

theorem coefficients_map_neg (terms : List Term) (exponent : UInt64) :
    coefficients (terms.map neg) exponent = (coefficients terms exponent).map fun c => -c := by
  simp only [coefficients, List.filter_map, List.map_map, Function.comp_def, exponent_neg]
  rfl

/-- Negating every term negates the normal form. Nothing is asked of the list. -/
theorem normalize_map_neg (terms : List Term) :
    normalize (terms.map neg) = (normalize terms).map neg := by
  apply eq_of_coefficient? (canonical_normalize _).1
    (ascending_map_neg (canonical_normalize terms).1)
  intro exponent
  rw [coefficient?_map_neg, coefficient?_normalize, coefficient?_normalize, coefficients_map_neg]
  have opposite := Coefficient.opposite_total? (coefficients terms exponent)
  generalize Coefficient.total? (coefficients terms exponent) = sum,
    Coefficient.total? ((coefficients terms exponent).map fun c => -c) = negated at opposite ⊢
  cases opposite with
  | none => rfl
  | some sums => exact sums.keep

end Term

end SparsePolynomial
