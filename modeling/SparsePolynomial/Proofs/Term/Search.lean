import SparsePolynomial.Proofs.Term.Lookup
import SparsePolynomial.Term.Search

/-!
Contract: the search by halving in an ascending list.

Owns:
- what lies on either side of a place of an ascending list;
- `search_eq_find?`: the search gives the first term with the exponent, so none of the halves that
  it gives up has held one.
-/

set_option autoImplicit false

namespace SparsePolynomial.Term

/-- In front of a place of an ascending list the exponents are lower than there, and from it on they
are not. -/
theorem Ascending.around_getElem {terms : List Term} (ascending : Ascending terms) (place : Nat)
    (inside : place < terms.length) :
    (∀ other ∈ terms.take place, other.exponent < terms[place].exponent) ∧
      ∀ other ∈ terms.drop place, terms[place].exponent ≤ other.exponent := by
  have behind := List.drop_eq_getElem_cons inside
  have parts : terms = terms.take place ++ terms[place] :: terms.drop (place + 1) := by
    rw [← behind, List.take_append_drop]
  have ⟨lower, higher⟩ := ascending.around parts
  refine ⟨lower, ?_⟩
  rw [behind]
  intro other member
  rcases List.mem_cons.mp member with rfl | later
  · exact UInt64.le_refl _
  · exact UInt64.le_of_lt (higher other later)

theorem find?_eq_none_of_ne {terms : List Term} {exponent : UInt64}
    (different : ∀ term ∈ terms, term.exponent ≠ exponent) :
    (terms.find? fun term => term.exponent = exponent) = none := by
  simpa using different

/-- Halving loses nothing: the half that is given up has no term with the exponent. -/
theorem search_eq_find? {terms : List Term} (ascending : Ascending terms) (exponent : UInt64) :
    search exponent terms = terms.find? fun term => term.exponent = exponent := by
  fun_induction search exponent terms with
  | case1 terms long below inductionHypothesis =>
      have higher := (ascending.around_getElem (terms.length / 2) (by omega)).2
      have givenUp : ∀ term ∈ terms.drop (terms.length - terms.length / 2),
          term.exponent ≠ exponent := by
        intro term member
        have fewer : terms.length / 2 ≤ terms.length - terms.length / 2 := by omega
        have inHalf := (List.drop_sublist_drop_left terms fewer).subset member
        exact (UInt64.ne_of_lt (UInt64.lt_of_lt_of_le below (higher term inHalf))).symm
      rw [inductionHypothesis (ascending.sublist (List.take_sublist _ _))]
      conv_rhs => rw [← List.take_append_drop (terms.length - terms.length / 2) terms]
      rw [List.find?_append, find?_eq_none_of_ne givenUp, Option.or_none]
  | case2 terms long notBelow inductionHypothesis =>
      have lower := (ascending.around_getElem (terms.length / 2) (by omega)).1
      have givenUp : ∀ term ∈ terms.take (terms.length / 2), term.exponent ≠ exponent := by
        intro term member
        have less := lower term member
        exact UInt64.ne_of_lt (UInt64.lt_of_lt_of_le less (UInt64.not_lt.mp notBelow))
      rw [inductionHypothesis (ascending.sublist (List.drop_sublist _ _))]
      conv_rhs => rw [← List.take_append_drop (terms.length / 2) terms]
      rw [List.find?_append, find?_eq_none_of_ne givenUp, Option.none_or]
  | case3 terms short =>
      cases terms with
      | nil => rfl
      | cons term rest =>
          have alone : rest = [] := by
            apply List.eq_nil_of_length_eq_zero
            rw [List.length_cons] at short
            omega
          subst alone
          by_cases same : term.exponent = exponent
          · simp [same]
          · simp [same]

end SparsePolynomial.Term
