import SparsePolynomial.Polynomial.Basic

/-!
Contract: the value of a polynomial at a point.

Owns:
- `evaluate`, which adds the values of the terms from the lowest exponent up, starting at zero;
- `HasRoot`, a value that counts as zero.
-/

set_option autoImplicit false

namespace SparsePolynomial.Polynomial

/-- The value at a point. -/
def evaluate (p : Polynomial) (x : Float) : Float :=
  p.terms.foldl (fun total term => total + term.evaluate x) 0.0

/-- The value at a point counts as zero. -/
def HasRoot (p : Polynomial) (x : Float) : Prop := Coefficient.Negligible (p.evaluate x)

instance (p : Polynomial) (x : Float) : Decidable (p.HasRoot x) := by
  unfold HasRoot; infer_instance

end SparsePolynomial.Polynomial
