import SparsePolynomial.Term.Basic

/-!
Contract: normal term lists, and how any list of terms is brought into that form.

Owns:
- `Canonical`, strictly ascending exponents and no negligible coefficient;
- sorting by exponent, in which terms of one exponent keep their order;
- combining neighbours of one exponent, whose coefficients are added from left to right.

Negligible terms are dropped after combining only, so small amounts of one exponent add up first.
-/

set_option autoImplicit false

namespace SparsePolynomial.Term

/-- Exponents ascend strictly. -/
def Ascending (terms : List Term) : Prop := terms.Pairwise fun a b => a.exponent < b.exponent

instance (terms : List Term) : Decidable (Ascending terms) := by unfold Ascending; infer_instance

/-- The one form in which a polynomial lists its terms. -/
def Canonical (terms : List Term) : Prop :=
  Ascending terms ∧ ∀ term ∈ terms, ¬ term.Negligible

instance (terms : List Term) : Decidable (Canonical terms) := by unfold Canonical; infer_instance

/-- The same terms by ascending exponent; terms of one exponent keep their order. -/
def sortByExponent (terms : List Term) : List Term :=
  terms.mergeSort fun a b => a.exponent ≤ b.exponent

/-- Adds the neighbours of one exponent that follow `current` to it. -/
def combineFrom (current : Term) : List Term → List Term
  | [] => [current]
  | next :: rest =>
    if current.exponent = next.exponent then
      combineFrom ⟨current.coefficient + next.coefficient, current.exponent⟩ rest
    else current :: combineFrom next rest

/-- One term for each run of neighbours of one exponent. -/
def combineRuns : List Term → List Term
  | [] => []
  | first :: rest => combineFrom first rest

/-- One term for each exponent that occurs, in ascending order. -/
def combine (terms : List Term) : List Term := combineRuns (sortByExponent terms)

/-- Without the terms that count as zero. -/
def dropNegligible (terms : List Term) : List Term := terms.filter fun term => ¬ term.Negligible

/-- The normal form of a list of terms. -/
def normalize (terms : List Term) : List Term := dropNegligible (combine terms)

theorem not_negligible_of_mem_dropNegligible {terms : List Term} {term : Term}
    (member : term ∈ dropNegligible terms) : ¬ term.Negligible := by
  simpa [dropNegligible] using (List.mem_filter.mp member).2

theorem dropNegligible_sublist (terms : List Term) : (dropNegligible terms).Sublist terms :=
  List.filter_sublist

end SparsePolynomial.Term
