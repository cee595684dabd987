import Mathlib.Data.List.Forall2
import SparsePolynomial.Term.Normal

/-!
Contract: term lists seen through the coefficient of each exponent.

Owns:
- `coefficient?`, the coefficient that a list gives an exponent, if it has a term for it;
- `forall₂_of_rel`: ascending lists whose coefficients are related in every exponent are related
  term by term, and `eq_of_coefficient?`: an ascending list is fixed by its coefficients;
- the coefficients after dropping negligible terms, with `Coefficient.keep` for a single one.
-/

set_option autoImplicit false

namespace SparsePolynomial

/-- The coefficient itself, or nothing if it counts as zero. -/
def Coefficient.keep (c : Float) : Option Float := if Negligible c then none else some c

theorem Coefficient.keep_of_negligible {c : Float} (negligible : Negligible c) : keep c = none :=
  if_pos negligible

theorem Coefficient.keep_of_not_negligible {c : Float} (kept : ¬ Negligible c) :
    keep c = some c :=
  if_neg kept

theorem Coefficient.keep_eq_none_iff {c : Float} : keep c = none ↔ Negligible c := by
  simp [keep]

theorem Coefficient.keep_eq_some_iff {c kept : Float} :
    keep c = some kept ↔ ¬ Negligible c ∧ kept = c := by
  by_cases negligible : Negligible c
  · simp [keep_of_negligible negligible, negligible]
  · simp [keep_of_not_negligible negligible, negligible, eq_comm]

namespace Term

/-- The coefficient of the first term with the exponent. -/
def coefficient? (terms : List Term) (exponent : UInt64) : Option Float :=
  (terms.find? fun term => term.exponent = exponent).map Term.coefficient

theorem coefficient?_cons (term : Term) (terms : List Term) (exponent : UInt64) :
    coefficient? (term :: terms) exponent =
      if term.exponent = exponent then some term.coefficient
      else coefficient? terms exponent := by
  unfold coefficient?
  rw [List.find?_cons]
  by_cases same : term.exponent = exponent
  · simp [same]
  · simp [same]

theorem coefficient?_append (left right : List Term) (exponent : UInt64) :
    coefficient? (left ++ right) exponent =
      (coefficient? left exponent).or (coefficient? right exponent) := by
  unfold coefficient?
  rw [List.find?_append, Option.map_or]

theorem coefficient?_eq_none {terms : List Term} {exponent : UInt64} :
    coefficient? terms exponent = none ↔ ∀ term ∈ terms, term.exponent ≠ exponent := by
  simp [coefficient?]

theorem mem_of_coefficient? {terms : List Term} {exponent : UInt64} {c : Float}
    (found : coefficient? terms exponent = some c) : ⟨c, exponent⟩ ∈ terms := by
  rcases Option.map_eq_some_iff.mp found with ⟨term, first, rfl⟩
  have same : term.exponent = exponent := by simpa using List.find?_some first
  rw [← same]
  exact List.mem_of_find?_eq_some first

/-! ## Ascending lists -/

theorem ascending_nil : Ascending [] := List.Pairwise.nil

theorem ascending_cons {term : Term} {terms : List Term} :
    Ascending (term :: terms) ↔
      (∀ other ∈ terms, term.exponent < other.exponent) ∧ Ascending terms :=
  List.pairwise_cons

theorem Ascending.sublist {shorter terms : List Term} (ascending : Ascending terms)
    (part : shorter.Sublist terms) : Ascending shorter :=
  List.Pairwise.sublist part ascending

/-- In an ascending list the exponents in front of a term are lower, those behind it higher. -/
theorem Ascending.around {terms before after : List Term} {term : Term}
    (ascending : Ascending terms) (parts : terms = before ++ term :: after) :
    (∀ other ∈ before, other.exponent < term.exponent) ∧
      ∀ other ∈ after, term.exponent < other.exponent := by
  rw [Ascending, parts, List.pairwise_append, List.pairwise_cons] at ascending
  obtain ⟨_, ⟨above, _⟩, below⟩ := ascending
  exact ⟨fun other member => below other member term List.mem_cons_self, above⟩

theorem coefficient?_of_below {terms : List Term} {exponent : UInt64}
    (above : ∀ term ∈ terms, exponent < term.exponent) : coefficient? terms exponent = none := by
  apply coefficient?_eq_none.mpr
  intro term member same
  exact UInt64.lt_irrefl _ (same ▸ above term member)

theorem coefficient?_of_mem {terms : List Term} (ascending : Ascending terms) {term : Term}
    (member : term ∈ terms) : coefficient? terms term.exponent = some term.coefficient := by
  induction terms with
  | nil => cases member
  | cons first rest inductionHypothesis =>
      rcases ascending_cons.mp ascending with ⟨below, ascendingRest⟩
      rw [coefficient?_cons]
      rcases List.mem_cons.mp member with rfl | later
      · exact if_pos rfl
      · rw [if_neg (UInt64.ne_of_lt (below term later))]
        exact inductionHypothesis ascendingRest later

/-- The terms of an ascending list are its coefficients. -/
theorem mem_iff_coefficient? {terms : List Term} (ascending : Ascending terms) {c : Float}
    {exponent : UInt64} : ⟨c, exponent⟩ ∈ terms ↔ coefficient? terms exponent = some c :=
  ⟨fun member => coefficient?_of_mem ascending member, mem_of_coefficient?⟩

/-! ## Lists that agree in every exponent -/

/-- Terms of one exponent with related coefficients. -/
def Related (relation : Float → Float → Prop) (a b : Term) : Prop :=
  a.exponent = b.exponent ∧ relation a.coefficient b.coefficient

variable {relation : Float → Float → Prop}

theorem rel_of_forall₂ {left right : List Term}
    (related : List.Forall₂ (Related relation) left right) (exponent : UInt64) :
    Option.Rel relation (coefficient? left exponent) (coefficient? right exponent) := by
  induction related with
  | nil => exact .none
  | @cons a b left right relatedHeads _ inductionHypothesis =>
      rw [coefficient?_cons, coefficient?_cons, ← relatedHeads.1]
      by_cases same : a.exponent = exponent
      · rw [if_pos same, if_pos same]
        exact .some relatedHeads.2
      · rw [if_neg same, if_neg same]
        exact inductionHypothesis

/-- The first terms of ascending lists that agree in every exponent have the same exponent, the
least that occurs in either list. -/
theorem related_heads {a b : Term} {left right : List Term}
    (aBelow : ∀ term ∈ left, a.exponent < term.exponent)
    (bBelow : ∀ term ∈ right, b.exponent < term.exponent)
    (related : ∀ exponent,
      Option.Rel relation (coefficient? (a :: left) exponent)
        (coefficient? (b :: right) exponent)) :
    Related relation a b := by
  have atA := related a.exponent
  have atB := related b.exponent
  rw [coefficient?_cons, if_pos rfl, coefficient?_cons] at atA
  rw [coefficient?_cons, coefficient?_cons, if_pos rfl] at atB
  by_cases same : a.exponent = b.exponent
  · rw [if_pos same.symm] at atA
    cases atA with
    | some heads => exact ⟨same, heads⟩
  · rcases UInt64.le_total a.exponent b.exponent with lower | higher
    · have less := UInt64.lt_of_le_of_ne lower same
      rw [if_neg (Ne.symm same), coefficient?_of_below fun term member =>
        UInt64.lt_trans less (bBelow term member)] at atA
      cases atA
    · have less := UInt64.lt_of_le_of_ne higher (Ne.symm same)
      rw [if_neg same, coefficient?_of_below fun term member =>
        UInt64.lt_trans less (aBelow term member)] at atB
      cases atB

/-- Ascending lists that agree in every exponent agree term by term. -/
theorem forall₂_of_rel {left right : List Term} (leftAscending : Ascending left)
    (rightAscending : Ascending right)
    (related : ∀ exponent,
      Option.Rel relation (coefficient? left exponent) (coefficient? right exponent)) :
    List.Forall₂ (Related relation) left right := by
  induction left generalizing right with
  | nil =>
      cases right with
      | nil => exact .nil
      | cons b right =>
          have missing := related b.exponent
          rw [coefficient?_cons, if_pos rfl] at missing
          cases missing
  | cons a left inductionHypothesis =>
      rcases ascending_cons.mp leftAscending with ⟨aBelow, leftRest⟩
      cases right with
      | nil =>
          have missing := related a.exponent
          rw [coefficient?_cons, if_pos rfl] at missing
          cases missing
      | cons b right =>
          rcases ascending_cons.mp rightAscending with ⟨bBelow, rightRest⟩
          have heads := related_heads aBelow bBelow related
          refine .cons heads (inductionHypothesis leftRest rightRest ?_)
          intro exponent
          have atExponent := related exponent
          rw [coefficient?_cons, coefficient?_cons, ← heads.1] at atExponent
          by_cases first : a.exponent = exponent
          · subst first
            rw [coefficient?_of_below aBelow, coefficient?_of_below (heads.1 ▸ bBelow)]
            exact .none
          · rwa [if_neg first, if_neg first] at atExponent

/-- An ascending list is fixed by the coefficient that it gives to every exponent. -/
theorem eq_of_coefficient? {left right : List Term} (leftAscending : Ascending left)
    (rightAscending : Ascending right)
    (same : ∀ exponent, coefficient? left exponent = coefficient? right exponent) :
    left = right := by
  have equal : List.Forall₂ (Related Eq) left right := by
    apply forall₂_of_rel leftAscending rightAscending
    intro exponent
    rw [same exponent]
    cases coefficient? right exponent with
    | none => exact .none
    | some c => exact .some rfl
  rw [← List.forall₂_eq_eq_eq]
  apply equal.imp
  intro a b heads
  cases a
  cases b
  rcases heads with ⟨rfl, rfl⟩
  rfl

/-! ## Dropping negligible terms -/

theorem coefficient?_dropNegligible {terms : List Term} (ascending : Ascending terms)
    (exponent : UInt64) :
    coefficient? (dropNegligible terms) exponent =
      (coefficient? terms exponent).bind Coefficient.keep := by
  induction terms with
  | nil => rfl
  | cons first rest inductionHypothesis =>
      rcases ascending_cons.mp ascending with ⟨below, ascendingRest⟩
      have later := inductionHypothesis ascendingRest
      unfold dropNegligible at later ⊢
      rw [List.filter_cons, coefficient?_cons]
      by_cases negligible : first.Negligible
      · rw [if_neg (by simpa using negligible), later]
        by_cases same : first.exponent = exponent
        · subst same
          rw [if_pos rfl, coefficient?_of_below below, Option.bind_some,
            Coefficient.keep_of_negligible negligible]
          rfl
        · rw [if_neg same]
      · rw [if_pos (by simpa using negligible), coefficient?_cons, later]
        by_cases same : first.exponent = exponent
        · rw [if_pos same, if_pos same, Option.bind_some,
            Coefficient.keep_of_not_negligible negligible]
        · rw [if_neg same, if_neg same]

theorem ascending_dropNegligible {terms : List Term} (ascending : Ascending terms) :
    Ascending (dropNegligible terms) :=
  ascending.sublist (dropNegligible_sublist terms)

/-- What is left after dropping the negligible terms of an ascending list is in normal form. -/
theorem canonical_dropNegligible {terms : List Term} (ascending : Ascending terms) :
    Canonical (dropNegligible terms) :=
  ⟨ascending_dropNegligible ascending, fun _ member =>
    not_negligible_of_mem_dropNegligible member⟩

theorem dropNegligible_of_canonical {terms : List Term} (canonical : Canonical terms) :
    dropNegligible terms = terms := by
  apply List.filter_eq_self.mpr
  intro term member
  simpa using canonical.2 term member

end Term

end SparsePolynomial
