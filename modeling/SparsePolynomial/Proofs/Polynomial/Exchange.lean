import SparsePolynomial.Proofs.Binary64.Negation
import SparsePolynomial.Polynomial.Arithmetic

/-!
Contract: sums whose two operands are exchanged.

Owns:
- `merge_comm`: a merge takes the same steps from either side, so it gives the same list;
- `merge_and_sum_exchange`: neither a merge nor a sum of polynomials depends on the order of its
  operands.

Nothing is asked of the lists. They need not ascend, an exponent may occur more than once, and any
coefficient may be negligible, infinite or NaN: only the two heads are ever compared, and adding
their coefficients is commutative to the bit.
-/

set_option autoImplicit false

namespace SparsePolynomial

namespace Term

theorem compareExponent_swap (a b : Term) :
    b.compareExponent a = (a.compareExponent b).swap := by
  rw [compareExponent, compareExponent]
  exact Std.OrientedOrd.eq_swap

/-- The sum takes its exponent from the first term, so the exponents have to agree. -/
theorem sum_exchange {a b : Term} (same : a.exponent = b.exponent) : a.sum b = b.sum a := by
  rw [Term.sum, Term.sum, Binary64.sum_comm, same]

/-- Each step of the one merge is mirrored by a step of the other: the head that is lower on its own
side is taken in both, and heads that meet are added in either order. -/
theorem merge_comm (left right : List Term) : merge left right = merge right left := by
  fun_induction merge left right with
  | case1 right => exact (merge_nil_right right).symm
  | case2 left _ => exact (merge_nil_left left).symm
  | case3 a left b right order inductionHypothesis =>
      have mirrored : b.compareExponent a = .gt := by rw [compareExponent_swap, order]; rfl
      rw [inductionHypothesis, merge, mirrored]
  | case4 a left b right order inductionHypothesis =>
      have mirrored : b.compareExponent a = .lt := by rw [compareExponent_swap, order]; rfl
      rw [inductionHypothesis, merge, mirrored]
  | case5 a left b right order inductionHypothesis =>
      have mirrored : b.compareExponent a = .eq := by rw [compareExponent_swap, order]; rfl
      have same : a.exponent = b.exponent := Std.LawfulEqOrd.eq_of_compare order
      rw [inductionHypothesis, sum_exchange same, merge, mirrored]

end Term

namespace Polynomial

/-- The order of the operands makes no difference to a merge of any two lists, and so none to the
sum of any two polynomials. -/
theorem merge_and_sum_exchange :
    (∀ left right : List Term, Term.merge left right = Term.merge right left) ∧
      ∀ p q : Polynomial, (p.add q).terms = (q.add p).terms := by
  refine ⟨Term.merge_comm, fun p q => ?_⟩
  rw [terms_add, terms_add, Term.merge_comm]

end Polynomial

end SparsePolynomial
