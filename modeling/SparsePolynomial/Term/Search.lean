import SparsePolynomial.Term.Basic

/-!
Contract: the term of an exponent in an ascending list, found by halving.

Owns:
- `search`, which gives up one half after another until at most one term is left, and only then
  compares exponents for equality.

A list that does not ascend may hide a term from the search.
-/

set_option autoImplicit false

namespace SparsePolynomial.Term

/-- The term of the exponent: the first half is kept if the term in the middle is already too high,
the second half otherwise. -/
def search (exponent : UInt64) (terms : List Term) : Option Term :=
  if long : 1 < terms.length then
    if exponent < terms[terms.length / 2].exponent then
      search exponent (terms.take (terms.length - terms.length / 2))
    else search exponent (terms.drop (terms.length / 2))
  else terms.head?.filter fun term => term.exponent = exponent
termination_by terms.length
decreasing_by
  · rw [List.length_take]
    omega
  · rw [List.length_drop]
    omega

end SparsePolynomial.Term
