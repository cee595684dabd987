import SparsePolynomial.Proofs.Binary64.Order
import SparsePolynomial.Proofs.Term.Merge
import SparsePolynomial.Proofs.Term.Product
import SparsePolynomial.Polynomial.Arithmetic

/-!
Contract: sum, negation, scaling and the product with a term, exponent by exponent.

Owns:
- the coefficients of each result in terms of those of the operands;
- that each result is canonical when the operands are.
-/

set_option autoImplicit false

namespace SparsePolynomial

theorem Coefficient.negligible_neg (c : Float) : Negligible (-c) ↔ Negligible c := by
  rw [Binary64.negligible_iff, Binary64.negligible_iff, Binary64.rank_neg]

namespace Polynomial

open Term (Ascending coefficient? dropNegligible)

/-! ## Construction -/

theorem canonical_ofTerms (terms : List Term) : (ofTerms terms).Canonical :=
  Term.canonical_normalize terms

theorem ofTerms_of_canonical {p : Polynomial} (canonical : p.Canonical) : ofTerms p.terms = p :=
  congrArg Polynomial.mk (Term.normalize_of_canonical canonical)

theorem canonical_ofArrays {coefficients : List Float} {exponents : List UInt32} {p : Polynomial}
    (computed : ofArrays coefficients exponents = .ok p) : p.Canonical := by
  rcases Traversal.map_eq_ok.mp computed with ⟨terms, _, rfl⟩
  exact canonical_ofTerms terms

/-- Polynomials with ascending exponents are fixed by their coefficients. -/
theorem ext_coefficient? {p q : Polynomial} (left : Ascending p.terms) (right : Ascending q.terms)
    (same : ∀ exponent, coefficient? p.terms exponent = coefficient? q.terms exponent) : p = q :=
  congrArg mk (Term.eq_of_coefficient? left right same)

/-! ## Sum and negation -/

theorem coefficient?_add {p q : Polynomial} (left : Ascending p.terms) (right : Ascending q.terms)
    (exponent : UInt64) :
    coefficient? (p.add q).terms exponent =
      Coefficient.add? (coefficient? p.terms exponent) (coefficient? q.terms exponent) := by
  rw [terms_add, Term.coefficient?_merge left right]

theorem ascending_add {p q : Polynomial} (left : Ascending p.terms) (right : Ascending q.terms) :
    Ascending (p.add q).terms := by
  rw [terms_add]
  exact Term.ascending_merge left right

theorem canonical_add {p q : Polynomial} (left : p.Canonical) (right : q.Canonical) :
    (p.add q).Canonical := by
  rw [Canonical, terms_add]
  exact Term.canonical_merge left right

theorem coefficient?_neg (p : Polynomial) (exponent : UInt64) :
    coefficient? p.neg.terms exponent = (coefficient? p.terms exponent).map fun c => -c :=
  Term.coefficient?_map_neg p.terms exponent

theorem canonical_neg {p : Polynomial} (canonical : p.Canonical) : p.neg.Canonical := by
  refine ⟨Term.ascending_map_neg canonical.1, ?_⟩
  intro term member negligible
  rcases List.mem_map.mp member with ⟨own, found, rfl⟩
  exact canonical.2 own found ((Coefficient.negligible_neg own.coefficient).mp negligible)

theorem canonical_sub {p q : Polynomial} (left : p.Canonical) (right : q.Canonical) :
    (p.sub q).Canonical :=
  canonical_add left (canonical_neg right)

/-! ## Scaling -/

theorem scale_of_negligible (p : Polynomial) {c : Float} (negligible : Coefficient.Negligible c) :
    p.scale c = zero :=
  if_pos negligible

theorem coefficient?_scale {p : Polynomial} (ascending : Ascending p.terms) {c : Float}
    (kept : ¬ Coefficient.Negligible c) (exponent : UInt64) :
    coefficient? (p.scale c).terms exponent =
      ((coefficient? p.terms exponent).map fun own => own * c).bind Coefficient.keep := by
  rw [scale, if_neg kept,
    Term.coefficient?_dropNegligible (Term.ascending_map_scale ascending c),
    Term.coefficient?_map_scale]

theorem ascending_scale {p : Polynomial} (ascending : Ascending p.terms) (c : Float) :
    Ascending (p.scale c).terms := by
  rw [scale]
  split
  · exact Term.ascending_nil
  · exact Term.ascending_dropNegligible (Term.ascending_map_scale ascending c)

theorem canonical_scale {p : Polynomial} (canonical : p.Canonical) (c : Float) :
    (p.scale c).Canonical := by
  refine ⟨ascending_scale canonical.1 c, ?_⟩
  rw [scale]
  split
  · exact fun _ member => absurd member List.not_mem_nil
  · exact fun _ member => Term.not_negligible_of_mem_dropNegligible member

/-! ## Product with a term -/

/-- The products with one term, without those that count as zero. -/
def row (p : Polynomial) (term : Term) : Polynomial :=
  ⟨dropNegligible (p.terms.map term.product)⟩

theorem mulTerm_of_negligible (p : Polynomial) {term : Term} (negligible : term.Negligible) :
    p.mulTerm term = .ok zero :=
  if_pos negligible

theorem mulTerm_eq_ok {p : Polynomial} {term : Term} (kept : ¬ term.Negligible)
    (result : Polynomial) :
    p.mulTerm term = .ok result ↔ (∀ own ∈ p.terms, term.Fits own) ∧ result = p.row term := by
  rw [mulTerm, if_neg kept]
  exact Traversal.bind_pure_eq_ok (Term.mapM_mul_eq_ok term p.terms)
    (fun products => ⟨dropNegligible products⟩) result

theorem canonical_row {p : Polynomial} {term : Term} (ascending : Ascending p.terms)
    (fits : ∀ own ∈ p.terms, term.Fits own) : (p.row term).Canonical :=
  Term.canonical_dropNegligible (Term.ascending_map_product ascending fits)

theorem canonical_mulTerm {p result : Polynomial} {term : Term} (canonical : p.Canonical)
    (computed : p.mulTerm term = .ok result) : result.Canonical := by
  by_cases negligible : term.Negligible
  · rw [mulTerm_of_negligible p negligible] at computed
    cases computed
    exact canonical_zero
  · rcases (mulTerm_eq_ok negligible result).mp computed with ⟨fits, rfl⟩
    exact canonical_row canonical.1 fits

end Polynomial

end SparsePolynomial
