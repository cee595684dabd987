import SparsePolynomial.Proofs.Polynomial.Arithmetic
import SparsePolynomial.Proofs.Term.Search

/-!
Contract: polynomials made from terms in any order.

Owns:
- `coefficient_eq`: in an ascending list the search finds the coefficient of every exponent;
- `Collects`, a polynomial that has the sum of the given coefficients in every exponent;
- `collects_ofTerms`: construction collects whatever terms it is given. Only the order within one
  exponent matters to it, and what is canonical already stays as it is.

A sum starts with the first coefficient and not with zero, so it is that of the input even where
zero would change a sign.
-/

set_option autoImplicit false

namespace SparsePolynomial

open Coefficient (Negligible)
open Term (Ascending coefficient? coefficients)

namespace Polynomial

/-! ## Coefficients -/

theorem coefficient_eq {p : Polynomial} (ascending : Ascending p.terms) (exponent : UInt64) :
    p.coefficient exponent = (coefficient? p.terms exponent).getD 0.0 := by
  rw [coefficient, Term.search_eq_find? ascending]
  rfl

theorem coefficient_of_mem {p : Polynomial} (ascending : Ascending p.terms) {term : Term}
    (member : term ∈ p.terms) : p.coefficient term.exponent = term.coefficient := by
  rw [coefficient_eq ascending, Term.coefficient?_of_mem ascending member, Option.getD_some]

theorem coefficient_of_forall_ne {p : Polynomial} (ascending : Ascending p.terms)
    {exponent : UInt64} (absent : ∀ term ∈ p.terms, term.exponent ≠ exponent) :
    p.coefficient exponent = 0.0 := by
  rw [coefficient_eq ascending, Term.coefficient?_eq_none.mpr absent, Option.getD_none]

/-! ## Sums by exponent -/

/-- The terms of the polynomial are the sums of the given coefficients by exponent. -/
structure Collects (given : List Term) (p : Polynomial) : Prop where
  ascending : Ascending p.terms
  /-- A term holds the sum of all coefficients that are given for its exponent, added in their
  order from the first one on; every such sum has a term unless it counts as zero. -/
  sums : ∀ (c : Float) (exponent : UInt64), ⟨c, exponent⟩ ∈ p.terms ↔
    ∃ first rest, coefficients given exponent = first :: rest ∧
      ¬ Negligible (rest.foldl (fun sum next => sum + next) first) ∧
      c = rest.foldl (fun sum next => sum + next) first
  found : ∀ term ∈ p.terms, p.coefficient term.exponent = term.coefficient
  absent : ∀ exponent, (∀ term ∈ p.terms, term.exponent ≠ exponent) →
    p.coefficient exponent = 0.0

/-- The sum of an exponent is kept unless it counts as zero. -/
theorem mem_ofTerms_iff (given : List Term) (c : Float) (exponent : UInt64) :
    ⟨c, exponent⟩ ∈ (ofTerms given).terms ↔
      ∃ first rest, coefficients given exponent = first :: rest ∧
        ¬ Negligible (rest.foldl (fun sum next => sum + next) first) ∧
        c = rest.foldl (fun sum next => sum + next) first := by
  rw [Term.mem_iff_coefficient? (canonical_ofTerms given).1, terms_ofTerms,
    Term.coefficient?_normalize]
  cases coefficients given exponent with
  | nil => simp [Coefficient.total?]
  | cons first rest =>
      rw [Coefficient.total?, Option.bind_some, Coefficient.keep_eq_some_iff]
      constructor
      · intro kept
        exact ⟨first, rest, rfl, kept⟩
      · rintro ⟨_, _, same, kept⟩
        cases same
        exact kept

/-- Construction collects the sums of any terms. It depends on the order within each exponent
alone, and gives back the terms of a canonical polynomial. -/
theorem collects_ofTerms (given : List Term) :
    Collects given (ofTerms given) ∧
      (∀ other : List Term,
        (∀ exponent : UInt64, (other.filter fun term => term.exponent = exponent) =
          given.filter fun term => term.exponent = exponent) →
        ofTerms other = ofTerms given) ∧
      ∀ p : Polynomial, p.Canonical → ofTerms p.terms = p := by
  have ascending := (canonical_ofTerms given).1
  refine ⟨⟨ascending, mem_ofTerms_iff given, ?_, ?_⟩, ?_, ?_⟩
  · exact fun _ member => coefficient_of_mem ascending member
  · exact fun _ absent => coefficient_of_forall_ne ascending absent
  · intro other sameOrder
    apply congrArg mk
    exact Term.normalize_congr fun exponent => congrArg (List.map _) (sameOrder exponent)
  · exact fun _ canonical => ofTerms_of_canonical canonical

/-- Terms of two exponents, one of which cancels: `10 ^ 16` swallows the `1` that follows it. -/
def interleaved : List Term := [⟨1e16, 3⟩, ⟨0.5, 0⟩, ⟨1.0, 3⟩, ⟨-1e16, 3⟩, ⟨0.25, 0⟩]

/-- The same terms exponent by exponent. -/
def grouped : List Term := [⟨0.5, 0⟩, ⟨0.25, 0⟩, ⟨1e16, 3⟩, ⟨1.0, 3⟩, ⟨-1e16, 3⟩]

theorem collects_ofTerms_interleaved :
    (∀ exponent : UInt64, (grouped.filter fun term => term.exponent = exponent) =
      interleaved.filter fun term => term.exponent = exponent) ∧
      Collects interleaved (ofTerms interleaved) ∧
      ofTerms grouped = ofTerms interleaved ∧ x.Canonical ∧ ofTerms x.terms = x := by
  have sameOrder (exponent : UInt64) :
      (grouped.filter fun term => term.exponent = exponent) =
        interleaved.filter fun term => term.exponent = exponent := by
    by_cases zero : 0 = exponent
    · subst zero
      simp [grouped, interleaved]
    · simp [grouped, interleaved, List.filter_cons, zero]
  have canonical : x.Canonical := canonical_ofTerm ⟨1.0, 1⟩
  have ⟨collects, reordered, unchanged⟩ := collects_ofTerms interleaved
  exact ⟨sameOrder, collects, reordered grouped sameOrder, canonical, unchanged x canonical⟩

end Polynomial

end SparsePolynomial
