import SparsePolynomial.Term.Normal
import Std.Data.TreeMap

/-!
Contract: sums of terms by exponent, collected in a map.

Owns:
- `Sums`, a coefficient for each exponent that has occurred; every sum starts at zero, and the terms
  of one exponent are added in the order in which they arrive;
- `sumByExponent`, the sums of a list of terms as terms of ascending exponent.

Nothing is dropped here: a sum that counts as zero is still a term.
-/

set_option autoImplicit false

namespace SparsePolynomial.Term

/-- The sum so far for each exponent that has occurred. -/
abbrev Sums : Type := Std.TreeMap UInt64 Float

namespace Sums

/-- Adds a term to the sum of its exponent. -/
def add (sums : Sums) (term : Term) : Sums :=
  sums.insert term.exponent (sums.getD term.exponent 0.0 + term.coefficient)

/-- The sums of a list of terms. -/
def ofTerms (terms : List Term) : Sums := terms.foldl add ∅

/-- The sums as terms. -/
def terms (sums : Sums) : List Term := sums.toList.map fun entry => ⟨entry.2, entry.1⟩

theorem ascending_terms (sums : Sums) : Ascending sums.terms := by
  have ordered : sums.toList.Pairwise fun a b => compare a.1 b.1 = .lt :=
    Std.TreeMap.ordered_keys_toList
  exact List.pairwise_map.mpr (ordered.imp fun less => Std.compare_eq_lt.mp less)

end Sums

/-- One term for each exponent that occurs, with the sum of its coefficients. -/
def sumByExponent (terms : List Term) : List Term := (Sums.ofTerms terms).terms

theorem ascending_sumByExponent (terms : List Term) : Ascending (sumByExponent terms) :=
  Sums.ascending_terms _

end SparsePolynomial.Term
