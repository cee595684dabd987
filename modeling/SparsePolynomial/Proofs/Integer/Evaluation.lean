import SparsePolynomial.Polynomial.Evaluation
import SparsePolynomial.Proofs.Integer.Meaning

/-!
Contract: evaluation of integer polynomials at integers.

Owns:
- `Squaring.Exact`, the invariant of exponentiation by squaring, and `isInteger_power`: a power is
  exact if it is within `exactBound`;
- `valueAt` and `magnitudeAt`, the exact value of a list of terms at an integer and the sum of the
  absolute values of its terms there;
- `isInteger_evaluate`: evaluation is exact while that sum is within `exactBound`, so a value counts
  as zero only where it is zero.

The square that follows the last digit of an exponent may leave the exact range or become infinite:
it is computed but never multiplied in.
-/

set_option autoImplicit false

namespace SparsePolynomial

open Binary64

/-! ## Powers -/

namespace Coefficient

/-- From the first power on, the absolute values of the powers of an integer do not shrink. -/
theorem natAbs_pow_le (s : ℤ) {k n : ℕ} (positive : 0 < k) (atMost : k ≤ n) :
    (s ^ k).natAbs ≤ (s ^ n).natAbs := by
  by_cases zero : s = 0
  · rw [zero, zero_pow (by omega), zero_pow (by omega)]
  · rw [Int.natAbs_pow, Int.natAbs_pow]
    exact Nat.pow_le_pow_right (Int.natAbs_pos.mpr zero) atMost

/-- The lowest digit of an exponent decides about one factor; the other digits are those of a power
of the square. -/
theorem pow_digit (r s : ℤ) (n : ℕ) :
    (if n % 2 == 1 then r * s else r) * (s * s) ^ (n / 2) = r * s ^ n := by
  have digits := Nat.div_add_mod n 2
  rw [← pow_two, ← pow_mul]
  rcases Nat.mod_two_eq_zero_or_one n with even | odd
  · rw [even, Nat.add_zero] at digits
    simp [even, digits]
  · rw [odd] at digits
    simp only [odd, BEq.rfl, if_true]
    rw [mul_assoc, ← pow_succ', digits]

/-- The result times the square to the power `n` is what squaring still computes, and nothing that
it needs for that leaves the exact range. -/
structure Squaring.Exact (state : Squaring) (r s : ℤ) (n : ℕ) : Prop where
  result : IsInteger state.result r
  /-- Once no digits are left, the square can be anything. -/
  square : n ≠ 0 → IsInteger state.square s
  small : (s ^ n).natAbs ≤ exactBound
  smallTotal : (r * s ^ n).natAbs ≤ exactBound

theorem Squaring.Exact.step {state : Squaring} {r s : ℤ} {n : ℕ} (exact : state.Exact r s n)
    (remaining : n ≠ 0) :
    (state.step (n % 2 == 1)).Exact (if n % 2 == 1 then r * s else r) (s * s) (n / 2) := by
  have square := exact.square remaining
  refine ⟨?_, ?_, ?_, ?_⟩
  · by_cases odd : n % 2 == 1
    · rw [Squaring.step, if_pos odd, if_pos odd]
      have first := Nat.mul_le_mul_left r.natAbs (natAbs_pow_le s Nat.one_pos (by omega : 1 ≤ n))
      rw [← Int.natAbs_mul, ← Int.natAbs_mul, pow_one] at first
      exact isInteger_mul exact.result square (le_trans first exact.smallTotal)
    · rw [Squaring.step, if_neg odd, if_neg odd]
      exact exact.result
  · -- A digit after this one: the power contains the square of the square.
    intro more
    have second := natAbs_pow_le s Nat.two_pos (by omega : 2 ≤ n)
    rw [pow_two] at second
    exact isInteger_mul square square (le_trans second exact.small)
  · rw [← pow_two, ← pow_mul]
    rcases Nat.eq_zero_or_pos (n / 2) with none | more
    · rw [none, Nat.mul_zero, pow_zero]
      decide
    · exact le_trans (natAbs_pow_le s (by omega) (Nat.mul_div_le n 2)) exact.small
  · rw [pow_digit]
    exact exact.smallTotal

theorem Squaring.Exact.foldl_step {state : Squaring} {r s : ℤ} {n : ℕ}
    (exact : state.Exact r s n) :
    IsInteger ((binaryDigits n).foldl Squaring.step state).result (r * s ^ n) := by
  induction n using Nat.strongRecOn generalizing state r s with
  | ind n inductionHypothesis =>
      rw [binaryDigits]
      by_cases none : n = 0
      · rw [if_pos none, none, pow_zero, mul_one]
        exact exact.result
      · rw [if_neg none, List.foldl_cons, ← pow_digit]
        exact inductionHypothesis (n / 2) (by omega) (exact.step none)

theorem isInteger_power {x : Float} {s : ℤ} (integer : IsInteger x s) {exponent : UInt64}
    (small : (s ^ exponent.toNat).natAbs ≤ exactBound) :
    IsInteger (power x exponent) (s ^ exponent.toNat) := by
  have start : Squaring.Exact ⟨1.0, x⟩ 1 s exponent.toNat :=
    ⟨isInteger_one, fun _ => integer, small, by rwa [one_mul]⟩
  have computed := start.foldl_step
  rwa [one_mul] at computed

end Coefficient

/-! ## Values -/

namespace Term

/-- The exact value of a term at an integer; anything to the power zero is one. -/
def integerAt (n : ℤ) (term : Term) : ℤ := integerOf term.coefficient * n ^ term.exponent.toNat

/-- The exact value of a list of terms at an integer. -/
def valueAt (terms : List Term) (n : ℤ) : ℤ := (terms.map (integerAt n)).sum

/-- The sum of the absolute values of the terms at an integer. -/
def magnitudeAt (terms : List Term) (n : ℤ) : ℕ :=
  (terms.map fun term => (integerOf term.coefficient).natAbs * n.natAbs ^ term.exponent.toNat).sum

theorem natAbs_integerAt (n : ℤ) (term : Term) :
    (integerAt n term).natAbs =
      (integerOf term.coefficient).natAbs * n.natAbs ^ term.exponent.toNat := by
  rw [integerAt, Int.natAbs_mul, Int.natAbs_pow]

theorem magnitudeAt_eq_sum (terms : List Term) (n : ℤ) :
    magnitudeAt terms n = (terms.map fun term => (integerAt n term).natAbs).sum := by
  simp only [magnitudeAt, natAbs_integerAt]

theorem natAbs_integerAt_le {terms : List Term} {term : Term} (member : term ∈ terms) (n : ℤ) :
    (integerAt n term).natAbs ≤ magnitudeAt terms n := by
  rw [magnitudeAt_eq_sum]
  exact List.le_sum_of_mem (List.mem_map_of_mem member)

/-- The coefficient is at least one in absolute value, so the power is no larger than the term. -/
theorem isInteger_evaluate_term {term : Term} (whole : IntegerValued term.coefficient)
    (kept : ¬ term.Negligible) {x : Float} {n : ℤ} (integer : IsInteger x n)
    (small : (integerAt n term).natAbs ≤ exactBound) :
    IsInteger (term.evaluate x) (integerAt n term) := by
  have nonzero : integerOf term.coefficient ≠ 0 := mt whole.negligible_iff.mpr kept
  have power : (n ^ term.exponent.toNat).natAbs ≤ (integerAt n term).natAbs := by
    rw [integerAt, Int.natAbs_mul]
    exact Nat.le_mul_of_pos_left _ (Int.natAbs_pos.mpr nonzero)
  exact isInteger_mul whole (Coefficient.isInteger_power integer (le_trans power small)) small

section Values

variable {terms : List Term} {x : Float} {n : ℤ}
  (values : ∀ term ∈ terms, IsInteger (term.evaluate x) (integerAt n term))

include values

theorem total_evaluate :
    Coefficient.total (terms.map fun term => term.evaluate x) = valueAt terms n := by
  rw [Coefficient.total, List.map_map, valueAt]
  exact congrArg List.sum (List.map_congr_left fun term member =>
    (values term member).integerOf_eq)

theorem magnitude_evaluate :
    Coefficient.magnitude (terms.map fun term => term.evaluate x) = magnitudeAt terms n := by
  rw [Coefficient.magnitude, List.map_map, magnitudeAt_eq_sum]
  exact congrArg List.sum (List.map_congr_left fun term member =>
    congrArg Int.natAbs (values term member).integerOf_eq)

end Values

end Term

namespace Polynomial

/-- Evaluation at an integer is exact if the absolute values of the terms add up to no more than
`exactBound`, however large the exponents are; the value counts as zero exactly if it is zero. -/
theorem isInteger_evaluate {p : Polynomial} {x : Float} (canonical : p.Canonical)
    (whole : Term.Whole p.terms) (integer : IntegerValued x)
    (small : Term.magnitudeAt p.terms (integerOf x) ≤ exactBound) :
    IsInteger (p.evaluate x) (Term.valueAt p.terms (integerOf x)) ∧
      (p.HasRoot x ↔ Term.valueAt p.terms (integerOf x) = 0) := by
  have values : ∀ term ∈ p.terms,
      IsInteger (term.evaluate x) (Term.integerAt (integerOf x) term) := by
    intro term member
    exact Term.isInteger_evaluate_term (whole term member) (canonical.2 term member) integer
      (le_trans (Term.natAbs_integerAt_le member _) small)
  have wholeValues : ∀ c ∈ p.terms.map fun term => term.evaluate x, IntegerValued c :=
    List.forall_mem_map.mpr fun term member => (values term member).integerValued
  have sum := Coefficient.isInteger_foldl isInteger_zero wholeValues (by
    rwa [Term.magnitude_evaluate values, Int.natAbs_zero, Nat.zero_add])
  rw [Term.total_evaluate values, Int.zero_add, List.foldl_map] at sum
  exact ⟨sum, sum.negligible_iff⟩

/-- One added to the highest power. -/
def topmost : Polynomial := ⟨[⟨1.0, 0⟩, ⟨1.0, 18446744073709551615⟩]⟩

theorem isInteger_evaluate_topmost :
    topmost.Canonical ∧ Term.Whole topmost.terms ∧ IntegerValued (-1.0) ∧
      Term.magnitudeAt topmost.terms (integerOf (-1.0)) ≤ exactBound ∧
      IsInteger (topmost.evaluate (-1.0)) (Term.valueAt topmost.terms (integerOf (-1.0))) ∧
      (topmost.HasRoot (-1.0) ↔ Term.valueAt topmost.terms (integerOf (-1.0)) = 0) := by
  have canonical : topmost.Canonical := by decide +kernel
  have whole : Term.Whole topmost.terms := by decide +kernel
  have point : IsInteger (-1.0) (-1) := isInteger_neg isInteger_one
  have small : Term.magnitudeAt topmost.terms (integerOf (-1.0)) ≤ exactBound := by
    simp [Term.magnitudeAt, topmost, point.integerOf_eq, isInteger_one.integerOf_eq, exactBound]
  exact ⟨canonical, whole, point.integerValued, small,
    isInteger_evaluate canonical whole point.integerValued small⟩

/-- The highest power of minus one is minus one. -/
example : topmost.evaluate (-1.0) = 0.0 := by decide +kernel

end Polynomial

end SparsePolynomial
