import SparsePolynomial.Proofs.Polynomial.Meeting

/-!
Contract: accumulation does not depend on the order in which the sums are listed.

Owns:
- `Enumeration`, an order in which a map of sums may list its entries, and `accumulateIn`,
  accumulation through a map that lists them so;
- `accumulate_sums`: whatever the order, the product has the sums of the pairs that meet in each
  exponent, and they ascend.

The sums are sorted afterwards and no exponent is listed twice, so sorting alone decides the result.
-/

set_option autoImplicit false

namespace SparsePolynomial

open Term (Ascending coefficients)

/-! ## Lists of sums -/

/-- Where no exponent occurs twice, another order has no other coefficients. -/
theorem Term.coefficients_of_perm {listed terms : List Term} (permuted : listed.Perm terms)
    (ascending : Ascending terms) (exponent : UInt64) :
    coefficients listed exponent = coefficients terms exponent := by
  have same : (coefficients listed exponent).Perm (coefficients terms exponent) :=
    (permuted.filter _).map _
  rw [coefficients_of_ascending ascending] at same ⊢
  cases found : coefficient? terms exponent with
  | none =>
      rw [found] at same
      exact same.eq_nil
  | some c =>
      rw [found] at same
      exact List.perm_singleton.mp same

/-- An order in which a map of sums may list its entries, each once. It may depend on everything
that has been added to the map. -/
structure Enumeration where
  entries : List Term → List Term
  perm : ∀ added, (entries added).Perm (Term.sumByExponent added)

namespace Enumeration

/-- The highest exponent first. -/
def descending : Enumeration where
  entries added := (Term.sumByExponent added).reverse
  perm _ := List.reverse_perm _

theorem normalize_entries (enumeration : Enumeration) (added : List Term) :
    Term.normalize (enumeration.entries added) = Term.normalize (Term.sumByExponent added) :=
  Term.normalize_congr
    (Term.coefficients_of_perm (enumeration.perm added) (Term.ascending_sumByExponent added))

end Enumeration

namespace Polynomial

/-! ## Accumulation in any order -/

/-- Accumulation through a map that lists its sums in an order of its own. -/
def accumulateIn (enumeration : Enumeration) (p q : Polynomial) :
    Except ExponentOverflow Polynomial :=
  (pairProducts p.terms q.terms).map fun products => ofTerms (enumeration.entries products)

theorem accumulateIn_eq (enumeration : Enumeration) (p q : Polynomial) :
    accumulateIn enumeration p q = accumulate p q := by
  rw [accumulateIn, accumulate, collectedProducts]
  cases pairProducts p.terms q.terms with
  | error overflow => rfl
  | ok products =>
      exact congrArg (fun terms => Except.ok (Polynomial.mk terms))
        (enumeration.normalize_entries products)

/-- Whatever the order of the sums, the terms of a product by accumulation are the sums that do not
count as zero, for the exponents in which pairs meet; and the pairs of a sum come by ascending
exponent of the left term. -/
theorem accumulate_sums {p q : Polynomial} (left : p.Canonical) (right : q.Canonical)
    (fit : Fit p q) (enumeration : Enumeration) :
    ∃ product, accumulateIn enumeration p q = .ok product ∧ accumulate p q = .ok product ∧
      Ascending product.terms ∧
        ∀ exponent, AscendingPairs (meetingPairs p q exponent) ∧
          ∀ c, ⟨c, exponent⟩ ∈ product.terms ↔
            meetingPairs p q exponent ≠ [] ∧
              ¬ Coefficient.Negligible (productSum (meetingPairs p q exponent)) ∧
              c = productSum (meetingPairs p q exponent) := by
  have computed := (accumulate_eq_ok p q _).mpr ⟨fit, rfl⟩
  have ascending := (canonical_accumulate computed).1
  refine ⟨_, (accumulateIn_eq enumeration p q).trans computed, computed, ascending,
    fun exponent => ⟨?_, fun c => ?_⟩⟩
  · exact ascendingPairs_meetingPairs left.1 right.1 exponent
  · have nonempty : ¬ Coefficient.Negligible (productSum (meetingPairs p q exponent)) →
        meetingPairs p q exponent ≠ [] := by
      intro kept empty
      rw [empty] at kept
      exact kept Coefficient.negligible_zero
    rw [Term.mem_iff_coefficient? ascending, coefficient?_accumulate computed,
      accumulated_productsAt fit, Coefficient.keep_eq_some_iff]
    exact ⟨fun kept => ⟨nonempty kept.1, kept⟩, fun kept => kept.2⟩

theorem accumulate_sums_descending :
    alternating.Canonical ∧ geometric.Canonical ∧ Fit alternating geometric ∧
      ∃ product, accumulateIn .descending alternating geometric = .ok product ∧
        accumulate alternating geometric = .ok product ∧ Ascending product.terms ∧
          ∀ exponent, AscendingPairs (meetingPairs alternating geometric exponent) ∧
            ∀ c, ⟨c, exponent⟩ ∈ product.terms ↔
              meetingPairs alternating geometric exponent ≠ [] ∧
                ¬ Coefficient.Negligible
                    (productSum (meetingPairs alternating geometric exponent)) ∧
                c = productSum (meetingPairs alternating geometric exponent) :=
  ⟨canonical_alternating, canonical_geometric, fit_alternating_geometric,
    accumulate_sums canonical_alternating canonical_geometric fit_alternating_geometric .descending⟩

end Polynomial

end SparsePolynomial
