import SparsePolynomial.Proofs.Term.Lookup
import SparsePolynomial.Polynomial.Basic

/-!
Contract: equality up to the tolerance, exponent by exponent.

Owns:
- `close_iff`: polynomials in ascending order are close if in every exponent both coefficients are
  missing, or both are there and close.
-/

set_option autoImplicit false

namespace SparsePolynomial.Polynomial

open Term (Ascending coefficient?)

theorem close_iff_forall₂ (p q : Polynomial) :
    p.Close q ↔ List.Forall₂ (Term.Related Coefficient.Close) p.terms q.terms := by
  rw [List.forall₂_iff_zip]
  constructor
  · intro close
    exact ⟨close.1, fun member => close.2 _ member⟩
  · intro close
    exact ⟨close.1, fun _ member => close.2 member⟩

theorem close_iff {p q : Polynomial} (left : Ascending p.terms) (right : Ascending q.terms) :
    p.Close q ↔
      ∀ exponent,
        Option.Rel Coefficient.Close (coefficient? p.terms exponent)
          (coefficient? q.terms exponent) := by
  rw [close_iff_forall₂]
  exact ⟨Term.rel_of_forall₂, Term.forall₂_of_rel left right⟩

end SparsePolynomial.Polynomial
