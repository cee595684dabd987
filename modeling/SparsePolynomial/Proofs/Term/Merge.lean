import SparsePolynomial.Proofs.Term.Lookup
import SparsePolynomial.Term.Merge

/-!
Contract: the merge of two ascending lists, exponent by exponent.

Owns:
- `Coefficient.add?`, the sum of two coefficients each of which may be missing;
- `coefficient?_merge`: a merge adds the coefficients of every exponent on its own;
- `canonical_merge`: the merge of two normal lists is normal.
-/

set_option autoImplicit false

namespace SparsePolynomial

/-- The sum of coefficients that may be missing; a sum that counts as zero is missing too. -/
def Coefficient.add? : Option Float → Option Float → Option Float
  | none, right => right
  | some a, none => some a
  | some a, some b => keep (a + b)

@[simp] theorem Coefficient.add?_none_left (c : Option Float) : add? none c = c := rfl

@[simp] theorem Coefficient.add?_none_right (c : Option Float) : add? c none = c := by
  cases c <;> rfl

namespace Term

/-! ## One step -/

theorem coefficient?_sum (a b : Term) (exponent : UInt64) :
    coefficient? (a.sum b) exponent =
      if a.exponent = exponent then Coefficient.keep (a.coefficient + b.coefficient) else none := by
  unfold Term.sum Coefficient.keep
  by_cases negligible : Coefficient.Negligible (a.coefficient + b.coefficient)
  · rw [if_pos negligible, if_pos (show Term.Negligible ⟨_, _⟩ from negligible), ite_self]
    rfl
  · rw [if_neg negligible, if_neg (show ¬ Term.Negligible ⟨_, _⟩ from negligible),
      coefficient?_cons]
    rfl

theorem mem_sum {a b term : Term} (member : term ∈ a.sum b) :
    term = ⟨a.coefficient + b.coefficient, a.exponent⟩ ∧ ¬ term.Negligible := by
  unfold Term.sum at member
  dsimp only at member
  split at member
  · cases member
  · rename_i kept
    obtain rfl := List.mem_singleton.mp member
    exact ⟨rfl, kept⟩

/-! ## The whole merge -/

/-- A term of a merge stands in one of the lists, or is a sum that was worth keeping. -/
theorem mem_merge {left right : List Term} {term : Term} (member : term ∈ merge left right) :
    term ∈ left ∨ term ∈ right ∨
      (¬ term.Negligible ∧ ∃ a ∈ left, a.exponent = term.exponent) := by
  fun_induction merge left right with
  | case1 right => exact .inr (.inl member)
  | case2 left _ => exact .inl member
  | case3 a left b right order inductionHypothesis =>
      rcases List.mem_cons.mp member with rfl | later
      · exact .inl List.mem_cons_self
      · rcases inductionHypothesis later with inLeft | inRight | ⟨kept, other, inLeft, same⟩
        · exact .inl (List.mem_cons_of_mem _ inLeft)
        · exact .inr (.inl inRight)
        · exact .inr (.inr ⟨kept, other, List.mem_cons_of_mem _ inLeft, same⟩)
  | case4 a left b right order inductionHypothesis =>
      rcases List.mem_cons.mp member with rfl | later
      · exact .inr (.inl List.mem_cons_self)
      · rcases inductionHypothesis later with inLeft | inRight | summed
        · exact .inl inLeft
        · exact .inr (.inl (List.mem_cons_of_mem _ inRight))
        · exact .inr (.inr summed)
  | case5 a left b right order inductionHypothesis =>
      rcases List.mem_append.mp member with first | later
      · rcases mem_sum first with ⟨rfl, kept⟩
        exact .inr (.inr ⟨kept, a, List.mem_cons_self, rfl⟩)
      · rcases inductionHypothesis later with inLeft | inRight | ⟨kept, other, inLeft, same⟩
        · exact .inl (List.mem_cons_of_mem _ inLeft)
        · exact .inr (.inl (List.mem_cons_of_mem _ inRight))
        · exact .inr (.inr ⟨kept, other, List.mem_cons_of_mem _ inLeft, same⟩)

/-- A merge has no exponent of its own, so what holds of the exponents of both lists holds of those
of their merge. -/
theorem forall_exponent_merge (property : UInt64 → Prop) {left right : List Term}
    (holdsLeft : ∀ term ∈ left, property term.exponent)
    (holdsRight : ∀ term ∈ right, property term.exponent) :
    ∀ term ∈ merge left right, property term.exponent := by
  intro term member
  rcases mem_merge member with inLeft | inRight | ⟨_, other, inLeft, same⟩
  · exact holdsLeft term inLeft
  · exact holdsRight term inRight
  · rw [← same]
    exact holdsLeft other inLeft

theorem below_merge {left right : List Term} {exponent : UInt64}
    (belowLeft : ∀ term ∈ left, exponent < term.exponent)
    (belowRight : ∀ term ∈ right, exponent < term.exponent) :
    ∀ term ∈ merge left right, exponent < term.exponent :=
  forall_exponent_merge (exponent < ·) belowLeft belowRight

private theorem below_cons {exponent : UInt64} {first : Term} {rest : List Term}
    (less : exponent < first.exponent) (ascending : Ascending (first :: rest)) :
    ∀ term ∈ first :: rest, exponent < term.exponent := by
  intro term member
  rcases List.mem_cons.mp member with rfl | later
  · exact less
  · exact UInt64.lt_trans less ((ascending_cons.mp ascending).1 term later)

theorem ascending_merge {left right : List Term} (leftAscending : Ascending left)
    (rightAscending : Ascending right) : Ascending (merge left right) := by
  fun_induction merge left right with
  | case1 right => exact rightAscending
  | case2 left _ => exact leftAscending
  | case3 a left b right order inductionHypothesis =>
      have less : a.exponent < b.exponent := Std.compare_eq_lt.mp order
      rcases ascending_cons.mp leftAscending with ⟨aBelow, leftRest⟩
      apply ascending_cons.mpr
      exact ⟨below_merge aBelow (below_cons less rightAscending),
        inductionHypothesis leftRest rightAscending⟩
  | case4 a left b right order inductionHypothesis =>
      have less : b.exponent < a.exponent := Std.compare_eq_gt.mp order
      rcases ascending_cons.mp rightAscending with ⟨bBelow, rightRest⟩
      apply ascending_cons.mpr
      exact ⟨below_merge (below_cons less leftAscending) bBelow,
        inductionHypothesis leftAscending rightRest⟩
  | case5 a left b right order inductionHypothesis =>
      have same : a.exponent = b.exponent := Std.LawfulEqOrd.eq_of_compare order
      rcases ascending_cons.mp leftAscending with ⟨aBelow, leftRest⟩
      rcases ascending_cons.mp rightAscending with ⟨bBelow, rightRest⟩
      have tail := inductionHypothesis leftRest rightRest
      have below := below_merge aBelow (same ▸ bBelow)
      unfold Term.sum
      dsimp only
      split
      · exact tail
      · exact ascending_cons.mpr ⟨below, tail⟩

/-- The merge of two normal lists is normal. -/
theorem canonical_merge {left right : List Term} (leftCanonical : Canonical left)
    (rightCanonical : Canonical right) : Canonical (merge left right) := by
  refine ⟨ascending_merge leftCanonical.1 rightCanonical.1, ?_⟩
  intro term member
  rcases mem_merge member with inLeft | inRight | ⟨kept, _⟩
  · exact leftCanonical.2 term inLeft
  · exact rightCanonical.2 term inRight
  · exact kept

/-- A merge adds the two coefficients of every exponent. -/
theorem coefficient?_merge {left right : List Term} (leftAscending : Ascending left)
    (rightAscending : Ascending right) (exponent : UInt64) :
    coefficient? (merge left right) exponent =
      Coefficient.add? (coefficient? left exponent) (coefficient? right exponent) := by
  fun_induction merge left right with
  | case1 right => rfl
  | case2 left _ => exact (Coefficient.add?_none_right _).symm
  | case3 a left b right order inductionHypothesis =>
      have less : a.exponent < b.exponent := Std.compare_eq_lt.mp order
      rw [coefficient?_cons a, coefficient?_cons a left,
        inductionHypothesis (ascending_cons.mp leftAscending).2 rightAscending]
      by_cases first : a.exponent = exponent
      · subst first
        rw [if_pos rfl, if_pos rfl, coefficient?_of_below (below_cons less rightAscending)]
        rfl
      · rw [if_neg first, if_neg first]
  | case4 a left b right order inductionHypothesis =>
      have less : b.exponent < a.exponent := Std.compare_eq_gt.mp order
      rw [coefficient?_cons b, coefficient?_cons b right,
        inductionHypothesis leftAscending (ascending_cons.mp rightAscending).2]
      by_cases first : b.exponent = exponent
      · subst first
        rw [if_pos rfl, if_pos rfl, coefficient?_of_below (below_cons less leftAscending)]
        rfl
      · rw [if_neg first, if_neg first]
  | case5 a left b right order inductionHypothesis =>
      have same : a.exponent = b.exponent := Std.LawfulEqOrd.eq_of_compare order
      rcases ascending_cons.mp leftAscending with ⟨aBelow, leftRest⟩
      rcases ascending_cons.mp rightAscending with ⟨bBelow, rightRest⟩
      rw [coefficient?_append, coefficient?_sum, coefficient?_cons a, coefficient?_cons b, ← same,
        inductionHypothesis leftRest rightRest]
      by_cases first : a.exponent = exponent
      · subst first
        rw [if_pos rfl, if_pos rfl, if_pos rfl, coefficient?_of_below aBelow,
          coefficient?_of_below (same ▸ bBelow), Coefficient.add?_none_left, Option.or_none]
        rfl
      · rw [if_neg first, if_neg first, if_neg first, Option.none_or]

end Term

end SparsePolynomial
