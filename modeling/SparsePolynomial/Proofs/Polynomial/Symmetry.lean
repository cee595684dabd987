import SparsePolynomial.Polynomial.Evaluation
import SparsePolynomial.Proofs.Binary64.Opposite
import SparsePolynomial.Proofs.Binary64.Product
import SparsePolynomial.Proofs.Polynomial.Arithmetic

/-!
Contract: how a value changes with the sign of the point and with the signs of the coefficients.

Owns:
- `power_neg`: a power of the negated base, which is told by the parity of the exponent;
- `reflect`, the polynomial with the coefficients of its odd powers negated;
- `evaluate_symmetric`: evaluating at the negated point is evaluating the reflected polynomial, and
  negating the polynomial negates its value, up to the sign of a zero.

The first holds to the bit, since the two evaluations add the same values. In the second the values
are negations of each other, and their sums are only as long as nothing cancels.
-/

set_option autoImplicit false

namespace SparsePolynomial

open Binary64 (Opposite)

/-! ## Powers -/

namespace Coefficient

/-- The sign of the result is carried along, whatever is multiplied in. -/
theorem Squaring.step_neg (result square : Float) (digit : Bool) :
    Squaring.step ⟨-result, square⟩ digit =
      ⟨-(Squaring.step ⟨result, square⟩ digit).result, square * square⟩ := by
  cases digit with
  | false => rfl
  | true => exact congrArg (Squaring.mk · (square * square)) (Binary64.neg_product result square)

theorem Squaring.foldl_step_neg (digits : List Bool) (result square : Float) :
    (digits.foldl Squaring.step ⟨-result, square⟩).result =
      -(digits.foldl Squaring.step ⟨result, square⟩).result := by
  induction digits generalizing result square with
  | nil => rfl
  | cons digit digits inductionHypothesis =>
      rw [List.foldl_cons, Squaring.step_neg, inductionHypothesis]
      rfl

/-- The base loses its sign in the first square, so the result takes it over with the lowest digit
or not at all. -/
theorem power_neg (x : Float) (exponent : UInt64) :
    power (-x) exponent =
      if exponent.toNat % 2 = 1 then -power x exponent else power x exponent := by
  rw [power, power, binaryDigits]
  by_cases none : exponent.toNat = 0
  · rw [if_pos none, none]
    rfl
  · have square := Binary64.neg_product_neg x x
    rw [if_neg none, List.foldl_cons, List.foldl_cons, Squaring.step, Squaring.step]
    by_cases odd : exponent.toNat % 2 = 1
    · simp only [odd, square, BEq.rfl, if_true, Binary64.product_neg, Squaring.foldl_step_neg]
    · simp only [odd, square, beq_iff_eq, if_false]

end Coefficient

/-! ## Terms -/

namespace Term

/-- A term of an odd power is negated, any other stays. -/
def reflect (term : Term) : Term := if term.exponent.toNat % 2 = 1 then term.neg else term

@[simp] theorem exponent_reflect (term : Term) : term.reflect.exponent = term.exponent := by
  unfold reflect
  split <;> rfl

theorem negligible_reflect (term : Term) : term.reflect.Negligible ↔ term.Negligible := by
  unfold reflect
  split
  · exact Coefficient.negligible_neg term.coefficient
  · exact Iff.rfl

theorem reflect_twice (term : Term) : term.reflect.reflect = term := by
  rw [reflect, exponent_reflect, reflect]
  split
  · rw [neg, neg, Binary64.neg_twice]
  · rfl

theorem evaluate_neg (term : Term) (x : Float) : term.neg.evaluate x = -term.evaluate x :=
  Binary64.neg_product term.coefficient _

theorem evaluate_reflect (term : Term) (x : Float) :
    term.reflect.evaluate x = term.evaluate (-x) := by
  show _ = term.coefficient * Coefficient.power (-x) term.exponent
  rw [Coefficient.power_neg, reflect]
  split
  · rw [Binary64.product_neg]
    exact evaluate_neg term x
  · rfl

theorem canonical_map_reflect {terms : List Term} (canonical : Canonical terms) :
    Canonical (terms.map reflect) := by
  refine ⟨ascending_map canonical.1 fun a _ b _ less => by simpa using less, ?_⟩
  intro term member negligible
  obtain ⟨own, found, rfl⟩ := List.mem_map.mp member
  exact canonical.2 own found ((negligible_reflect own).mp negligible)

end Term

/-! ## Polynomials -/

namespace Polynomial

/-- The polynomial with the coefficients of its odd powers negated. -/
def reflect (p : Polynomial) : Polynomial := ⟨p.terms.map Term.reflect⟩

theorem reflect_twice (p : Polynomial) : p.reflect.reflect = p := by
  simp [reflect, Function.comp_def, Term.reflect_twice]

theorem canonical_reflect (p : Polynomial) : p.reflect.Canonical ↔ p.Canonical := by
  refine ⟨fun reflected => ?_, Term.canonical_map_reflect⟩
  have again : p.reflect.reflect.Canonical := Term.canonical_map_reflect reflected
  rwa [reflect_twice] at again

theorem evaluate_reflect (p : Polynomial) (x : Float) : p.reflect.evaluate x = p.evaluate (-x) := by
  simp only [evaluate, reflect, List.foldl_map, Term.evaluate_reflect]

theorem opposite_evaluate (p : Polynomial) (x : Float) :
    Opposite (p.evaluate x) (p.neg.evaluate x) := by
  have sums := Binary64.opposite_zero.foldl_add (p.terms.map fun term => term.evaluate x)
  simpa only [evaluate, neg, List.foldl_map, Term.evaluate_neg] using sums

/-- Evaluation and finding roots follow the sign of the point, where odd powers change theirs, and
the signs of the coefficients. Only the sign of a zero value is not determined by that. -/
theorem evaluate_symmetric (p : Polynomial) (x : Float) :
    (p.reflect.Canonical ↔ p.Canonical) ∧
      p.evaluate (-x) = p.reflect.evaluate x ∧ (p.HasRoot (-x) ↔ p.reflect.HasRoot x) ∧
        Opposite (p.evaluate x) (p.neg.evaluate x) ∧ (p.neg.HasRoot x ↔ p.HasRoot x) := by
  have reflected := evaluate_reflect p x
  have opposite := opposite_evaluate p x
  refine ⟨canonical_reflect p, reflected.symm, ?_, opposite, opposite.negligible_iff⟩
  rw [HasRoot, HasRoot, reflected]

/-- At its root, `x - 1` has the same zero as its negation. -/
example : (Polynomial.mk [⟨-1.0, 0⟩, ⟨1.0, 1⟩]).evaluate 1.0 = 0.0 ∧
    (Polynomial.mk [⟨-1.0, 0⟩, ⟨1.0, 1⟩]).neg.evaluate 1.0 = 0.0 := by decide +kernel

end Polynomial

end SparsePolynomial
