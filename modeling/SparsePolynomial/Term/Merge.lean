import SparsePolynomial.Term.Basic

/-!
Contract: the sum of two term lists by one pass over both.

Owns:
- `merge`, which always takes the head of smaller exponent and adds heads of equal exponent.

Lists that ascend strictly give the terms of a sum. Any other lists are merged by the same rule, and
only sums are dropped when negligible: a term that meets no partner stays as it is.
-/

set_option autoImplicit false

namespace SparsePolynomial.Term

/-- The sum of two terms of one exponent, or no term if the coefficients cancel. -/
def sum (a b : Term) : List Term :=
  let total : Term := ⟨a.coefficient + b.coefficient, a.exponent⟩
  if total.Negligible then [] else [total]

/-- Adds two term lists in one pass. -/
def merge : List Term → List Term → List Term
  | [], right => right
  | left, [] => left
  | a :: left, b :: right =>
    match a.compareExponent b with
    | .lt => a :: merge left (b :: right)
    | .gt => b :: merge (a :: left) right
    | .eq => a.sum b ++ merge left right
termination_by left right => left.length + right.length

@[simp] theorem merge_nil_left (right : List Term) : merge [] right = right := by simp [merge]

@[simp] theorem merge_nil_right (left : List Term) : merge left [] = left := by
  cases left <;> simp [merge]

end SparsePolynomial.Term
