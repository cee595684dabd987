import SparsePolynomial.Proofs.Term.Normal
import SparsePolynomial.Term.Sums

/-!
Contract: sums by exponent, exponent by exponent.

Owns:
- `Coefficient.collect`, the step that adds a coefficient to a sum which may not have begun;
- `coefficient?_sumByExponent`: each exponent collects its own coefficients and nothing else.
-/

set_option autoImplicit false

namespace SparsePolynomial

/-- Adds to the sum so far; a sum that has not begun starts at zero. -/
def Coefficient.collect (total : Option Float) (c : Float) : Option Float :=
  some (total.getD 0.0 + c)

/-- A sum that has begun is the plain sum from left to right. -/
theorem Coefficient.foldl_collect_some (coefficients : List Float) (start : Float) :
    coefficients.foldl collect (some start) =
      some (coefficients.foldl (fun sum c => sum + c) start) := by
  induction coefficients generalizing start with
  | nil => rfl
  | cons c rest inductionHypothesis => exact inductionHypothesis (start + c)

namespace Term

namespace Sums

theorem getElem?_add (sums : Sums) (term : Term) (exponent : UInt64) :
    (sums.add term)[exponent]? =
      if term.exponent = exponent then Coefficient.collect sums[exponent]? term.coefficient
      else sums[exponent]? := by
  rw [add, Std.TreeMap.getElem?_insert]
  by_cases same : term.exponent = exponent
  · subst same
    rw [if_pos (Std.compare_eq_iff_eq.mpr rfl), if_pos rfl, Coefficient.collect,
      Std.TreeMap.getD_eq_getD_getElem?]
  · rw [if_neg (mt Std.compare_eq_iff_eq.mp same), if_neg same]

theorem getElem?_foldl_add (terms : List Term) (sums : Sums) (exponent : UInt64) :
    (terms.foldl add sums)[exponent]? =
      (coefficients terms exponent).foldl Coefficient.collect sums[exponent]? := by
  induction terms generalizing sums with
  | nil => rfl
  | cons first rest inductionHypothesis =>
      rw [List.foldl_cons, inductionHypothesis, getElem?_add, coefficients_cons]
      by_cases same : first.exponent = exponent
      · rw [if_pos same, if_pos same, List.foldl_cons]
      · rw [if_neg same, if_neg same]

theorem coefficient?_terms (sums : Sums) (exponent : UInt64) :
    coefficient? sums.terms exponent = sums[exponent]? := by
  apply Option.ext
  intro c
  rw [← Std.TreeMap.mem_toList_iff_getElem?_eq_some]
  constructor
  · intro found
    rcases List.mem_map.mp (mem_of_coefficient? found) with ⟨⟨key, sum⟩, entry, same⟩
    rcases Term.mk.inj same with ⟨rfl, rfl⟩
    exact entry
  · intro entry
    have member : (⟨c, exponent⟩ : Term) ∈ sums.terms :=
      List.mem_map.mpr ⟨(exponent, c), entry, rfl⟩
    exact coefficient?_of_mem sums.ascending_terms member

end Sums

theorem coefficient?_sumByExponent (terms : List Term) (exponent : UInt64) :
    coefficient? (sumByExponent terms) exponent =
      (coefficients terms exponent).foldl Coefficient.collect none := by
  rw [sumByExponent, Sums.coefficient?_terms, Sums.ofTerms, Sums.getElem?_foldl_add,
    Std.TreeMap.getElem?_emptyc]

/-- Normalizing sums by exponent only drops those that count as zero. -/
theorem coefficient?_normalize_sumByExponent (terms : List Term) (exponent : UInt64) :
    coefficient? (normalize (sumByExponent terms)) exponent =
      ((coefficients terms exponent).foldl Coefficient.collect none).bind Coefficient.keep := by
  rw [normalize_of_ascending (ascending_sumByExponent terms),
    coefficient?_dropNegligible (ascending_sumByExponent terms), coefficient?_sumByExponent]

end Term

end SparsePolynomial
