import Mathlib
import SparsePolynomial.Proofs.Integer.Sum

/-!
Contract: lists of terms with integer coefficients as polynomials over the integers.

Owns:
- `meaning`, the integer polynomial that a list of terms writes down, read through its
  coefficients;
- `absoluteSum`, the sum of the absolute values of the coefficients of an integer polynomial, and
  `magnitude`, which counts every term of a list on its own;
- the products of all pairs, which denote the product of the polynomials.
-/

set_option autoImplicit false

open scoped Polynomial
open Polynomial (C X)

namespace SparsePolynomial

/-! ## Absolute sums -/

/-- The sum of the absolute values of all coefficients. -/
noncomputable def absoluteSum (f : ℤ[X]) : Nat := ∑ e ∈ f.support, (f.coeff e).natAbs

theorem absoluteSum_zero : absoluteSum 0 = 0 := by
  rw [absoluteSum, Polynomial.support_zero, Finset.sum_empty]

theorem absoluteSum_eq_sum {f : ℤ[X]} {exponents : Finset Nat} (covers : f.support ⊆ exponents) :
    absoluteSum f = ∑ e ∈ exponents, (f.coeff e).natAbs := by
  apply Finset.sum_subset covers
  intro e _ missing
  rw [Polynomial.notMem_support_iff.mp missing, Int.natAbs_zero]

theorem natAbs_coeff_le (f : ℤ[X]) (e : Nat) : (f.coeff e).natAbs ≤ absoluteSum f := by
  by_cases member : e ∈ f.support
  · exact Finset.single_le_sum (f := fun e => (f.coeff e).natAbs) (fun _ _ => Nat.zero_le _) member
  · rw [Polynomial.notMem_support_iff.mp member, Int.natAbs_zero]
    exact Nat.zero_le _

theorem absoluteSum_add_le (f g : ℤ[X]) :
    absoluteSum (f + g) ≤ absoluteSum f + absoluteSum g := by
  rw [absoluteSum_eq_sum Polynomial.support_add,
    absoluteSum_eq_sum (@Finset.subset_union_left _ _ f.support g.support),
    absoluteSum_eq_sum (@Finset.subset_union_right _ _ f.support g.support),
    ← Finset.sum_add_distrib]
  apply Finset.sum_le_sum
  intro e _
  rw [Polynomial.coeff_add]
  exact Int.natAbs_add_le _ _

theorem absoluteSum_neg (f : ℤ[X]) : absoluteSum (-f) = absoluteSum f := by
  rw [absoluteSum, absoluteSum, Polynomial.support_neg]
  apply Finset.sum_congr rfl
  intro e _
  rw [Polynomial.coeff_neg, Int.natAbs_neg]

theorem absoluteSum_C_mul_le (n : ℤ) (f : ℤ[X]) :
    absoluteSum (C n * f) ≤ n.natAbs * absoluteSum f := by
  have covers : (C n * f).support ⊆ f.support := by
    intro e member
    rw [Polynomial.mem_support_iff, Polynomial.coeff_C_mul] at member
    exact Polynomial.mem_support_iff.mpr (right_ne_zero_of_mul member)
  rw [absoluteSum_eq_sum covers, absoluteSum, Finset.mul_sum]
  apply Finset.sum_le_sum
  intro e _
  rw [Polynomial.coeff_C_mul, Int.natAbs_mul]

theorem absoluteSum_monomial_le (n : ℤ) (e : Nat) : absoluteSum (C n * X ^ e) ≤ n.natAbs := by
  rw [absoluteSum_eq_sum (Polynomial.support_C_mul_X_pow_subset e n), Finset.sum_singleton,
    Polynomial.coeff_C_mul_X_pow, if_pos rfl]

/-- A monomial of a new exponent adds its whole coefficient. -/
theorem absoluteSum_monomial_add {n : ℤ} {e : Nat} {f : ℤ[X]} (fresh : f.coeff e = 0) :
    n.natAbs + absoluteSum f ≤ absoluteSum (C n * X ^ e + f) := by
  have missing : e ∉ f.support := Polynomial.notMem_support_iff.mpr fresh
  have covers : (C n * X ^ e + f).support ⊆ insert e f.support := by
    intro k member
    by_contra outside
    rw [Finset.mem_insert, not_or] at outside
    apply Polynomial.mem_support_iff.mp member
    rw [Polynomial.coeff_add, Polynomial.coeff_C_mul_X_pow, if_neg outside.1,
      Polynomial.notMem_support_iff.mp outside.2, add_zero]
  rw [absoluteSum_eq_sum covers, Finset.sum_insert missing, Polynomial.coeff_add,
    Polynomial.coeff_C_mul_X_pow, if_pos rfl, fresh, add_zero]
  apply Nat.add_le_add_left
  apply Finset.sum_le_sum
  intro k member
  have other : k ≠ e := fun same => missing (same ▸ member)
  rw [Polynomial.coeff_add, Polynomial.coeff_C_mul_X_pow, if_neg other, zero_add]

/-! ## Lists of terms -/

namespace Term

open Binary64

/-- The integer polynomial that a list of terms writes down. -/
noncomputable def meaning (terms : List Term) : ℤ[X] :=
  (terms.map fun term => C (integerOf term.coefficient) * X ^ term.exponent.toNat).sum

/-- The sum of the absolute values of the coefficients of all terms. -/
def magnitude (terms : List Term) : Nat := Coefficient.magnitude (terms.map Term.coefficient)

/-- Every coefficient is an integer. -/
def Whole (terms : List Term) : Prop := ∀ term ∈ terms, IntegerValued term.coefficient

instance (terms : List Term) : Decidable (Whole terms) := by unfold Whole; infer_instance

@[simp] theorem meaning_nil : meaning [] = 0 := rfl

theorem meaning_cons (term : Term) (rest : List Term) :
    meaning (term :: rest) =
      C (integerOf term.coefficient) * X ^ term.exponent.toNat + meaning rest :=
  List.sum_cons

theorem magnitude_cons (term : Term) (rest : List Term) :
    magnitude (term :: rest) = (integerOf term.coefficient).natAbs + magnitude rest :=
  List.sum_cons

theorem meaning_append (left right : List Term) :
    meaning (left ++ right) = meaning left + meaning right := by
  rw [meaning, List.map_append, List.sum_append]
  rfl

theorem magnitude_append (left right : List Term) :
    magnitude (left ++ right) = magnitude left + magnitude right := by
  rw [magnitude, Coefficient.magnitude, List.map_append, List.map_append, List.sum_append]
  rfl

theorem coeff_meaning (terms : List Term) (exponent : UInt64) :
    (meaning terms).coeff exponent.toNat =
      Coefficient.total (coefficients terms exponent) := by
  induction terms with
  | nil => exact Polynomial.coeff_zero _
  | cons first rest inductionHypothesis =>
      rw [meaning_cons, Polynomial.coeff_add, Polynomial.coeff_C_mul_X_pow, coefficients_cons,
        inductionHypothesis]
      by_cases same : first.exponent = exponent
      · rw [if_pos same, if_pos (congrArg UInt64.toNat same).symm, Coefficient.total_cons]
      · rw [if_neg same, if_neg fun equal => same (UInt64.toNat_inj.mp equal.symm), zero_add]

theorem coeff_meaning_of_large (terms : List Term) {n : Nat} (large : UInt64.size ≤ n) :
    (meaning terms).coeff n = 0 := by
  induction terms with
  | nil => exact Polynomial.coeff_zero _
  | cons first rest inductionHypothesis =>
      have below := first.exponent.toNat_lt_size
      rw [meaning_cons, Polynomial.coeff_add, Polynomial.coeff_C_mul_X_pow, if_neg (by omega),
        inductionHypothesis, zero_add]

/-- The terms of one exponent are some of all terms. -/
theorem magnitude_coefficients_le (terms : List Term) (exponent : UInt64) :
    Coefficient.magnitude (coefficients terms exponent) ≤ magnitude terms := by
  induction terms with
  | nil => exact Nat.le_refl 0
  | cons first rest inductionHypothesis =>
      rw [coefficients_cons, magnitude_cons]
      by_cases same : first.exponent = exponent
      · rw [if_pos same, Coefficient.magnitude_cons]
        exact Nat.add_le_add_left inductionHypothesis _
      · rw [if_neg same]
        exact le_trans inductionHypothesis (Nat.le_add_left _ _)

theorem whole_coefficients {terms : List Term} (whole : Whole terms) (exponent : UInt64) :
    ∀ c ∈ coefficients terms exponent, IntegerValued c := by
  intro c member
  obtain ⟨term, found, rfl⟩ := List.mem_map.mp member
  exact whole term (List.mem_filter.mp found).1

/-- Terms that meet in one exponent may cancel but never grow. -/
theorem absoluteSum_meaning_le (terms : List Term) :
    absoluteSum (meaning terms) ≤ magnitude terms := by
  induction terms with
  | nil => exact le_of_eq absoluteSum_zero
  | cons first rest inductionHypothesis =>
      rw [meaning_cons, magnitude_cons]
      calc
        absoluteSum (C (integerOf first.coefficient) * X ^ first.exponent.toNat + meaning rest) ≤
            absoluteSum (C (integerOf first.coefficient) * X ^ first.exponent.toNat) +
              absoluteSum (meaning rest) := absoluteSum_add_le _ _
        _ ≤ (integerOf first.coefficient).natAbs + magnitude rest :=
            Nat.add_le_add (absoluteSum_monomial_le _ _) inductionHypothesis

/-- Terms of different exponents do not cancel. -/
theorem magnitude_le_absoluteSum {terms : List Term} (ascending : Ascending terms) :
    magnitude terms ≤ absoluteSum (meaning terms) := by
  induction terms with
  | nil => exact Nat.zero_le _
  | cons first rest inductionHypothesis =>
      obtain ⟨below, ascendingRest⟩ := ascending_cons.mp ascending
      have fresh : (meaning rest).coeff first.exponent.toNat = 0 := by
        rw [coeff_meaning, coefficients_eq_nil, Coefficient.total_nil]
        intro term member
        exact (UInt64.ne_of_lt (below term member)).symm
      rw [meaning_cons, magnitude_cons]
      exact le_trans (Nat.add_le_add_left (inductionHypothesis ascendingRest) _)
        (absoluteSum_monomial_add fresh)

/-! ## Products of pairs -/

/-- The products of a term with a list are exact integers of the exact exponents. -/
private theorem meaning_map_product {a : Term} {right : List Term}
    (wholeLeft : IntegerValued a.coefficient) (wholeRight : Whole right)
    (fits : ∀ b ∈ right, a.Fits b)
    (small : (integerOf a.coefficient).natAbs * magnitude right ≤ exactBound) :
    Whole (right.map a.product) ∧
      magnitude (right.map a.product) = (integerOf a.coefficient).natAbs * magnitude right ∧
      meaning (right.map a.product) =
        C (integerOf a.coefficient) * X ^ a.exponent.toNat * meaning right := by
  induction right with
  | nil => exact ⟨fun _ member => absurd member List.not_mem_nil, rfl, (mul_zero _).symm⟩
  | cons b right inductionHypothesis =>
      obtain ⟨wholeFirst, wholeRest⟩ := List.forall_mem_cons.mp wholeRight
      obtain ⟨fitsFirst, fitsRest⟩ := List.forall_mem_cons.mp fits
      rw [magnitude_cons, Nat.mul_add] at small
      obtain ⟨whole, size, denoted⟩ := inductionHypothesis wholeRest fitsRest (by omega)
      have exact : IsInteger (a.product b).coefficient
          (integerOf a.coefficient * integerOf b.coefficient) :=
        isInteger_mul wholeLeft wholeFirst (by rw [Int.natAbs_mul]; omega)
      refine ⟨List.forall_mem_cons.mpr ⟨exact.integerValued, whole⟩, ?_, ?_⟩
      · rw [List.map_cons, magnitude_cons, exact.integerOf_eq, size, magnitude_cons,
          Int.natAbs_mul, Nat.mul_add]
      · rw [List.map_cons, meaning_cons, exact.integerOf_eq, denoted, meaning_cons,
          toNat_exponent_product fitsFirst, map_mul, pow_add]
        ring

/-- All products of pairs are exact, and together they denote the product. -/
theorem meaning_products {left right : List Term} (wholeLeft : Whole left)
    (wholeRight : Whole right) (fit : ∀ a ∈ left, ∀ b ∈ right, a.Fits b)
    (small : magnitude left * magnitude right ≤ exactBound) :
    Whole (products left right) ∧
      magnitude (products left right) = magnitude left * magnitude right ∧
      meaning (products left right) = meaning left * meaning right := by
  induction left with
  | nil => exact ⟨fun _ member => absurd member List.not_mem_nil, (Nat.zero_mul _).symm,
      (zero_mul _).symm⟩
  | cons a left inductionHypothesis =>
      obtain ⟨wholeFirst, wholeRest⟩ := List.forall_mem_cons.mp wholeLeft
      obtain ⟨fitsFirst, fitRest⟩ := List.forall_mem_cons.mp fit
      rw [magnitude_cons, Nat.add_mul] at small
      obtain ⟨rowWhole, rowSize, rowDenoted⟩ :=
        meaning_map_product wholeFirst wholeRight fitsFirst (by omega)
      obtain ⟨whole, size, denoted⟩ := inductionHypothesis wholeRest fitRest (by omega)
      have rows : products (a :: left) right = right.map a.product ++ products left right :=
        List.flatMap_cons
      rw [rows]
      refine ⟨List.forall_mem_append.mpr ⟨rowWhole, whole⟩, ?_, ?_⟩
      · rw [magnitude_append, rowSize, size, magnitude_cons, Nat.add_mul]
      · rw [meaning_append, rowDenoted, denoted, meaning_cons, add_mul]

end Term

end SparsePolynomial
