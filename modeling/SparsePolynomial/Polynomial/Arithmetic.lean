import SparsePolynomial.Polynomial.Basic
import SparsePolynomial.Term.Merge

/-!
Contract: the operations on polynomials that need one pass over the terms.

Owns:
- sum, difference, negation, scaling and the product with one term.

None of them sorts: a canonical operand gives a canonical result because each step keeps the order
of the exponents and drops what has become negligible.
-/

set_option autoImplicit false

namespace SparsePolynomial.Polynomial

/-- The sum. -/
def add (p q : Polynomial) : Polynomial :=
  if p.IsZero then q
  else if q.IsZero then p
  else ⟨Term.merge p.terms q.terms⟩

def neg (p : Polynomial) : Polynomial := ⟨p.terms.map Term.neg⟩

/-- The difference, as the sum with the negation. -/
def sub (p q : Polynomial) : Polynomial := p.add q.neg

/-- The product with a number; one that counts as zero gives zero. -/
def scale (p : Polynomial) (c : Float) : Polynomial :=
  if Coefficient.Negligible c then zero
  else ⟨Term.dropNegligible (p.terms.map fun term => term.scale c)⟩

/-- The product with a term; one that counts as zero gives zero. An exponent out of range is
reported even if the product it belongs to would be dropped. -/
def mulTerm (p : Polynomial) (term : Term) : Except ExponentOverflow Polynomial :=
  if term.Negligible then .ok zero
  else do
    let products ← p.terms.mapM fun own => term.mul own
    return ⟨Term.dropNegligible products⟩

@[simp] theorem zero_add (p : Polynomial) : zero.add p = p := by simp [add, IsZero]

@[simp] theorem add_zero (p : Polynomial) : p.add zero = p := by
  unfold add
  split
  · rename_i isZero
    cases p
    simp_all [IsZero, zero]
  · simp [IsZero]

/-- The short cuts for zero agree with the merge. -/
theorem terms_add (p q : Polynomial) : (p.add q).terms = Term.merge p.terms q.terms := by
  unfold add
  split
  · simp_all [IsZero]
  · split <;> simp_all [IsZero]

end SparsePolynomial.Polynomial
