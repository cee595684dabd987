import SparsePolynomial.Proofs.Term.Lookup

/-!
Contract: the normal form of any list of terms, exponent by exponent.

Owns:
- `coefficients`, the coefficients that a list gives to one exponent in the order of the list, and
  `Coefficient.total?`, their sum from left to right;
- `coefficient?_normalize`: a normal form keeps that sum for every exponent, unless it counts as
  zero;
- `canonical_normalize`, and that a normal list is its own normal form.
-/

set_option autoImplicit false

namespace SparsePolynomial

/-- The sum from left to right, if there is anything to add. -/
def Coefficient.total? : List Float → Option Float
  | [] => none
  | first :: rest => some (rest.foldl (fun total c => total + c) first)

namespace Term

/-- The coefficients of all terms with the exponent. -/
def coefficients (terms : List Term) (exponent : UInt64) : List Float :=
  (terms.filter fun term => term.exponent = exponent).map Term.coefficient

theorem coefficients_cons (term : Term) (terms : List Term) (exponent : UInt64) :
    coefficients (term :: terms) exponent =
      if term.exponent = exponent then term.coefficient :: coefficients terms exponent
      else coefficients terms exponent := by
  unfold coefficients
  rw [List.filter_cons]
  by_cases same : term.exponent = exponent
  · simp [same]
  · simp [same]

theorem coefficients_eq_nil {terms : List Term} {exponent : UInt64}
    (different : ∀ term ∈ terms, term.exponent ≠ exponent) : coefficients terms exponent = [] := by
  simpa [coefficients] using different

theorem coefficients_of_ascending {terms : List Term} (ascending : Ascending terms)
    (exponent : UInt64) : coefficients terms exponent = (coefficient? terms exponent).toList := by
  induction terms with
  | nil => rfl
  | cons first rest inductionHypothesis =>
      rcases ascending_cons.mp ascending with ⟨below, ascendingRest⟩
      rw [coefficients_cons, coefficient?_cons, inductionHypothesis ascendingRest]
      by_cases same : first.exponent = exponent
      · subst same
        rw [if_pos rfl, if_pos rfl, coefficient?_of_below below]
        rfl
      · rw [if_neg same, if_neg same]

/-! ## Sorting -/

/-- Exponents never descend. -/
def Sorted (terms : List Term) : Prop := terms.Pairwise fun a b => a.exponent ≤ b.exponent

private theorem exponent_le_trans (a b c : Term) (left : decide (a.exponent ≤ b.exponent) = true)
    (right : decide (b.exponent ≤ c.exponent) = true) :
    decide (a.exponent ≤ c.exponent) = true :=
  decide_eq_true (UInt64.le_trans (of_decide_eq_true left) (of_decide_eq_true right))

private theorem exponent_le_total (a b : Term) :
    (decide (a.exponent ≤ b.exponent) || decide (b.exponent ≤ a.exponent)) = true := by
  rcases UInt64.le_total a.exponent b.exponent with less | greater
  · rw [decide_eq_true less, Bool.true_or]
  · rw [decide_eq_true greater, Bool.or_true]

theorem sorted_sortByExponent (terms : List Term) : Sorted (sortByExponent terms) :=
  (List.pairwise_mergeSort exponent_le_trans exponent_le_total terms).imp of_decide_eq_true

/-- Sorting is stable: the terms of one exponent keep their order. -/
theorem coefficients_sortByExponent (terms : List Term) (exponent : UInt64) :
    coefficients (sortByExponent terms) exponent = coefficients terms exponent := by
  have ordered : (terms.filter fun term => term.exponent = exponent).Pairwise
      fun a b => decide (a.exponent ≤ b.exponent) = true := by
    apply List.pairwise_iff_forall_sublist.mpr
    intro a b part
    have left := (List.mem_filter.mp (part.subset List.mem_cons_self)).2
    have right := (List.mem_filter.mp (part.subset (List.mem_cons_of_mem _ List.mem_cons_self))).2
    rw [of_decide_eq_true left, of_decide_eq_true right]
    exact decide_eq_true (UInt64.le_refl _)
  have kept := List.sublist_mergeSort exponent_le_trans exponent_le_total ordered
    List.filter_sublist
  have among := kept.filter fun term => term.exponent = exponent
  simp only [List.filter_filter, Bool.and_self] at among
  have permuted := (List.mergeSort_perm terms fun a b => a.exponent ≤ b.exponent).filter
    fun term => term.exponent = exponent
  exact congrArg (List.map Term.coefficient) (among.eq_of_length permuted.length_eq.symm).symm

/-! ## Combining neighbours -/

theorem mem_combineFrom {current term : Term} {rest : List Term}
    (member : term ∈ combineFrom current rest) :
    ∃ other ∈ current :: rest, other.exponent = term.exponent := by
  fun_induction combineFrom current rest with
  | case1 current => exact ⟨current, List.mem_cons_self, by rw [List.mem_singleton.mp member]⟩
  | case2 current next rest same inductionHypothesis =>
      rcases inductionHypothesis member with ⟨other, found, exponents⟩
      rcases List.mem_cons.mp found with rfl | later
      · exact ⟨current, List.mem_cons_self, exponents⟩
      · exact ⟨other, List.mem_cons_of_mem _ (List.mem_cons_of_mem _ later), exponents⟩
  | case3 current next rest different inductionHypothesis =>
      rcases List.mem_cons.mp member with rfl | later
      · exact ⟨term, List.mem_cons_self, rfl⟩
      · rcases inductionHypothesis later with ⟨other, found, exponents⟩
        exact ⟨other, List.mem_cons_of_mem _ found, exponents⟩

private theorem below_of_sorted {current next : Term} {rest : List Term}
    (sorted : Sorted (current :: next :: rest)) (different : current.exponent ≠ next.exponent) :
    ∀ other ∈ next :: rest, current.exponent < other.exponent := by
  rcases List.pairwise_cons.mp sorted with ⟨atMost, sortedRest⟩
  have less : current.exponent < next.exponent :=
    UInt64.lt_of_le_of_ne (atMost next List.mem_cons_self) different
  intro other member
  rcases List.mem_cons.mp member with rfl | later
  · exact less
  · exact UInt64.lt_of_lt_of_le less ((List.pairwise_cons.mp sortedRest).1 other later)

private theorem sorted_merged {current next : Term} {rest : List Term} (c : Float)
    (sorted : Sorted (current :: next :: rest)) : Sorted (⟨c, current.exponent⟩ :: rest) := by
  rcases List.pairwise_cons.mp sorted with ⟨atMost, sortedRest⟩
  apply List.pairwise_cons.mpr
  exact ⟨fun other member => atMost other (List.mem_cons_of_mem _ member),
    (List.pairwise_cons.mp sortedRest).2⟩

theorem ascending_combineFrom {current : Term} {rest : List Term}
    (sorted : Sorted (current :: rest)) : Ascending (combineFrom current rest) := by
  fun_induction combineFrom current rest with
  | case1 current => exact List.pairwise_singleton _ _
  | case2 current next rest same inductionHypothesis =>
      exact inductionHypothesis (sorted_merged _ sorted)
  | case3 current next rest different inductionHypothesis =>
      have below := below_of_sorted sorted different
      apply ascending_cons.mpr
      refine ⟨?_, inductionHypothesis (List.pairwise_cons.mp sorted).2⟩
      intro term member
      rcases mem_combineFrom member with ⟨other, found, exponents⟩
      rw [← exponents]
      exact below other found

theorem coefficient?_combineFrom {current : Term} {rest : List Term}
    (sorted : Sorted (current :: rest)) (exponent : UInt64) :
    coefficient? (combineFrom current rest) exponent =
      Coefficient.total? (coefficients (current :: rest) exponent) := by
  fun_induction combineFrom current rest with
  | case1 current =>
      rw [coefficient?_cons, coefficients_cons]
      by_cases first : current.exponent = exponent
      · rw [if_pos first, if_pos first]
        rfl
      · rw [if_neg first, if_neg first]
        rfl
  | case2 current next rest same inductionHypothesis =>
      rw [inductionHypothesis (sorted_merged _ sorted), coefficients_cons, coefficients_cons,
        coefficients_cons, ← same]
      by_cases first : current.exponent = exponent
      · rw [if_pos first, if_pos first, if_pos first]
        rfl
      · rw [if_neg first, if_neg first, if_neg first]
  | case3 current next rest different inductionHypothesis =>
      have below := below_of_sorted sorted different
      rw [coefficient?_cons, coefficients_cons,
        inductionHypothesis (List.pairwise_cons.mp sorted).2]
      by_cases first : current.exponent = exponent
      · subst first
        rw [if_pos rfl, if_pos rfl, coefficients_eq_nil]
        · rfl
        · intro other member
          exact (UInt64.ne_of_lt (below other member)).symm
      · rw [if_neg first, if_neg first]

/-! ## The normal form -/

theorem ascending_combine (terms : List Term) : Ascending (combine terms) := by
  have sorted := sorted_sortByExponent terms
  unfold combine
  generalize sortByExponent terms = ordered at sorted ⊢
  cases ordered with
  | nil => exact ascending_nil
  | cons first rest => exact ascending_combineFrom sorted

theorem coefficient?_combine (terms : List Term) (exponent : UInt64) :
    coefficient? (combine terms) exponent = Coefficient.total? (coefficients terms exponent) := by
  have sorted := sorted_sortByExponent terms
  rw [← coefficients_sortByExponent]
  unfold combine
  generalize sortByExponent terms = ordered at sorted ⊢
  cases ordered with
  | nil => rfl
  | cons first rest => exact coefficient?_combineFrom sorted exponent

theorem canonical_normalize (terms : List Term) : Canonical (normalize terms) :=
  canonical_dropNegligible (ascending_combine terms)

theorem coefficient?_normalize (terms : List Term) (exponent : UInt64) :
    coefficient? (normalize terms) exponent =
      (Coefficient.total? (coefficients terms exponent)).bind Coefficient.keep := by
  rw [normalize, coefficient?_dropNegligible (ascending_combine terms), coefficient?_combine]

/-- A normal form depends only on the coefficients of each exponent and their order. -/
theorem normalize_congr {left right : List Term}
    (same : ∀ exponent, coefficients left exponent = coefficients right exponent) :
    normalize left = normalize right := by
  apply eq_of_coefficient? (canonical_normalize left).1 (canonical_normalize right).1
  intro exponent
  rw [coefficient?_normalize, coefficient?_normalize, same exponent]

theorem combine_of_ascending {terms : List Term} (ascending : Ascending terms) :
    combine terms = terms := by
  apply eq_of_coefficient? (ascending_combine terms) ascending
  intro exponent
  rw [coefficient?_combine, coefficients_of_ascending ascending]
  cases coefficient? terms exponent with
  | none => rfl
  | some c => rfl

/-- Terms that ascend already only lose what is negligible. -/
theorem normalize_of_ascending {terms : List Term} (ascending : Ascending terms) :
    normalize terms = dropNegligible terms := by
  rw [normalize, combine_of_ascending ascending]

/-- A normal list is its own normal form. -/
theorem normalize_of_canonical {terms : List Term} (canonical : Canonical terms) :
    normalize terms = terms := by
  rw [normalize_of_ascending canonical.1, dropNegligible_of_canonical canonical]

end Term

end SparsePolynomial
