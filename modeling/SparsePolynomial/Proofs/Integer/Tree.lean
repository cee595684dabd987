import SparsePolynomial.Proofs.Integer.Arithmetic

/-!
Contract: expressions of integer polynomials, computed exactly.

Owns:
- `Tree`, expressions over polynomials from arbitrary terms, with the strategy of each product;
- `Tree.bound`, how large the coefficients of a subtree can get, and `Tree.Small`, which keeps every
  subtree within the exact range;
- that such a tree computes the integer polynomial it denotes, so that trees of one meaning give
  one list of terms.
-/

set_option autoImplicit false

open scoped Polynomial
open Polynomial (C X)

namespace SparsePolynomial

open Binary64

inductive Tree where
  | leaf (terms : List Term)
  | add (left right : Tree)
  | sub (left right : Tree)
  | neg (operand : Tree)
  | scale (operand : Tree) (factor : Float)
  | multiply (strategy : Strategy) (left right : Tree)

namespace Tree

/-- The polynomial that the operations compute, unless an exponent leaves the range. -/
def evaluate : Tree → Except Halt Polynomial
  | leaf terms => .ok (.ofTerms terms)
  | add left right => do return (← left.evaluate).add (← right.evaluate)
  | sub left right => do return (← left.evaluate).sub (← right.evaluate)
  | neg operand => do return (← operand.evaluate).neg
  | scale operand factor => do return (← operand.evaluate).scale factor
  | multiply strategy left right => do
    let p ← left.evaluate
    let q ← right.evaluate
    Polynomial.multiplyOrHalt strategy p q

/-- The integer polynomial that the expression means. -/
noncomputable def meaning : Tree → ℤ[X]
  | leaf terms => Term.meaning terms
  | add left right => left.meaning + right.meaning
  | sub left right => left.meaning - right.meaning
  | neg operand => -operand.meaning
  | scale operand factor => C (integerOf factor) * operand.meaning
  | multiply _ left right => left.meaning * right.meaning

/-- A bound on the sum of the absolute values of the coefficients. -/
def bound : Tree → Nat
  | leaf terms => Term.magnitude terms
  | add left right => left.bound + right.bound
  | sub left right => left.bound + right.bound
  | neg operand => operand.bound
  | scale operand factor => operand.bound * (integerOf factor).natAbs
  | multiply _ left right => left.bound * right.bound

/-- Every coefficient and every factor is an integer. -/
def Whole : Tree → Prop
  | leaf terms => Term.Whole terms
  | add left right => left.Whole ∧ right.Whole
  | sub left right => left.Whole ∧ right.Whole
  | neg operand => operand.Whole
  | scale operand factor => operand.Whole ∧ IntegerValued factor
  | multiply _ left right => left.Whole ∧ right.Whole

/-- The bound of every subtree is in the exact range. -/
def Small : Tree → Prop
  | leaf terms => (leaf terms).bound ≤ exactBound
  | add left right => left.Small ∧ right.Small ∧ (add left right).bound ≤ exactBound
  | sub left right => left.Small ∧ right.Small ∧ (sub left right).bound ≤ exactBound
  | neg operand => operand.Small ∧ (neg operand).bound ≤ exactBound
  | scale operand factor => operand.Small ∧ (scale operand factor).bound ≤ exactBound
  | multiply strategy left right =>
    left.Small ∧ right.Small ∧ (multiply strategy left right).bound ≤ exactBound

theorem bound_le_of_small {tree : Tree} (small : tree.Small) : tree.bound ≤ exactBound := by
  cases tree with
  | leaf terms => exact small
  | add left right => exact small.2.2
  | sub left right => exact small.2.2
  | neg operand => exact small.2
  | scale operand factor => exact small.2
  | multiply strategy left right => exact small.2.2

theorem absoluteSum_sub_le (f g : ℤ[X]) :
    absoluteSum (f - g) ≤ absoluteSum f + absoluteSum g := by
  rw [sub_eq_add_neg, ← absoluteSum_neg g]
  exact absoluteSum_add_le f (-g)

/-- Each operation represents its exact result and stays within its bound. -/
theorem represents_evaluate {tree : Tree} (whole : tree.Whole) (small : tree.Small)
    {p : Polynomial} (computed : tree.evaluate = .ok p) :
    Represents p tree.meaning ∧ absoluteSum tree.meaning ≤ tree.bound := by
  induction tree generalizing p with
  | leaf terms =>
      cases computed
      exact ⟨represents_ofTerms whole small, Term.absoluteSum_meaning_le terms⟩
  | add left right leftHypothesis rightHypothesis =>
      obtain ⟨leftSmall, rightSmall, within⟩ := small
      obtain ⟨q, leftComputed, rest⟩ := Traversal.bind_eq_ok.mp computed
      obtain ⟨r, rightComputed, result⟩ := Traversal.bind_eq_ok.mp rest
      cases result
      obtain ⟨leftRepresents, leftBound⟩ := leftHypothesis whole.1 leftSmall leftComputed
      obtain ⟨rightRepresents, rightBound⟩ := rightHypothesis whole.2 rightSmall rightComputed
      have sizes := Nat.add_le_add leftBound rightBound
      exact ⟨represents_add leftRepresents rightRepresents (le_trans sizes within),
        le_trans (absoluteSum_add_le _ _) sizes⟩
  | sub left right leftHypothesis rightHypothesis =>
      obtain ⟨leftSmall, rightSmall, within⟩ := small
      obtain ⟨q, leftComputed, rest⟩ := Traversal.bind_eq_ok.mp computed
      obtain ⟨r, rightComputed, result⟩ := Traversal.bind_eq_ok.mp rest
      cases result
      obtain ⟨leftRepresents, leftBound⟩ := leftHypothesis whole.1 leftSmall leftComputed
      obtain ⟨rightRepresents, rightBound⟩ := rightHypothesis whole.2 rightSmall rightComputed
      have sizes := Nat.add_le_add leftBound rightBound
      exact ⟨represents_sub leftRepresents rightRepresents (le_trans sizes within),
        le_trans (absoluteSum_sub_le _ _) sizes⟩
  | neg operand inductionHypothesis =>
      obtain ⟨q, operandComputed, result⟩ := Traversal.bind_eq_ok.mp computed
      cases result
      obtain ⟨represents, size⟩ := inductionHypothesis whole small.1 operandComputed
      rw [meaning, absoluteSum_neg]
      exact ⟨represents_neg represents (le_trans size small.2), size⟩
  | scale operand factor inductionHypothesis =>
      obtain ⟨q, operandComputed, result⟩ := Traversal.bind_eq_ok.mp computed
      cases result
      obtain ⟨represents, size⟩ := inductionHypothesis whole.1 small.1 operandComputed
      have sizes := Nat.mul_le_mul_right (integerOf factor).natAbs size
      have operandSmall := le_trans size (bound_le_of_small small.1)
      refine ⟨represents_scale represents whole.2 operandSmall (le_trans sizes small.2), ?_⟩
      rw [bound, Nat.mul_comm]
      exact le_trans (absoluteSum_C_mul_le _ _) (Nat.mul_le_mul_left _ size)
  | multiply strategy left right leftHypothesis rightHypothesis =>
      obtain ⟨leftSmall, rightSmall, within⟩ := small
      obtain ⟨q, leftComputed, rest⟩ := Traversal.bind_eq_ok.mp computed
      obtain ⟨r, rightComputed, product⟩ := Traversal.bind_eq_ok.mp rest
      obtain ⟨leftRepresents, leftBound⟩ := leftHypothesis whole.1 leftSmall leftComputed
      obtain ⟨rightRepresents, rightBound⟩ := rightHypothesis whole.2 rightSmall rightComputed
      have sizes := Nat.mul_le_mul leftBound rightBound
      obtain ⟨represents, size⟩ := represents_multiply leftRepresents rightRepresents
        (le_trans leftBound (bound_le_of_small leftSmall))
        (le_trans rightBound (bound_le_of_small rightSmall)) (le_trans sizes within)
        (Polynomial.multiplyOrHalt_eq_ok.mp product)
      exact ⟨represents, le_trans size sizes⟩

/-- A small tree of integers computes the nonzero coefficients of what it denotes, by ascending
exponent; no exponent or coefficient is out of range. Trees that denote the same polynomial
compute the same terms. -/
theorem terms_evaluate {tree : Tree} (whole : tree.Whole) (small : tree.Small) {p : Polynomial}
    (computed : tree.evaluate = .ok p) :
    p.terms = integerTerms tree.meaning ∧
      (∀ e ∈ tree.meaning.support,
        e < UInt64.size ∧ (tree.meaning.coeff e).natAbs ≤ exactBound) ∧
      ∀ {other : Tree} {q : Polynomial}, other.Whole → other.Small → other.evaluate = .ok q →
        other.meaning = tree.meaning → q.terms = p.terms := by
  obtain ⟨represents, size⟩ := represents_evaluate whole small computed
  refine ⟨represents.terms_eq, ?_, ?_⟩
  · intro e member
    have nonzero := Polynomial.mem_support_iff.mp member
    refine ⟨?_, le_trans (natAbs_coeff_le _ e) (le_trans size (bound_le_of_small small))⟩
    by_contra large
    exact nonzero (represents.range e (Nat.le_of_not_lt large))
  · intro other q otherWhole otherSmall otherComputed same
    have otherRepresents := (represents_evaluate otherWhole otherSmall otherComputed).1
    rw [otherRepresents.terms_eq, represents.terms_eq, same]

/-- `(x - 1) * (x + 1)`, in which the terms of the first power cancel. -/
def differenceOfSquares : Tree :=
  multiply .distribute (leaf [⟨-1.0, 0⟩, ⟨1.0, 1⟩]) (leaf [⟨1.0, 0⟩, ⟨1.0, 1⟩])

theorem terms_evaluate_differenceOfSquares :
    differenceOfSquares.Whole ∧ differenceOfSquares.Small ∧
      differenceOfSquares.evaluate = .ok ⟨[⟨-1.0, 0⟩, ⟨1.0, 2⟩]⟩ ∧
        [⟨-1.0, 0⟩, ⟨1.0, 2⟩] = integerTerms differenceOfSquares.meaning := by
  have whole : differenceOfSquares.Whole :=
    ⟨by unfold Whole; decide +kernel, by unfold Whole; decide +kernel⟩
  have small : differenceOfSquares.Small :=
    ⟨by unfold Small; decide +kernel, by unfold Small; decide +kernel, by decide +kernel⟩
  have left : Polynomial.ofTerms [⟨-1.0, 0⟩, ⟨1.0, 1⟩] = ⟨[⟨-1.0, 0⟩, ⟨1.0, 1⟩]⟩ :=
    congrArg Polynomial.mk (Term.normalize_of_canonical (by decide +kernel))
  have right : Polynomial.ofTerms [⟨1.0, 0⟩, ⟨1.0, 1⟩] = ⟨[⟨1.0, 0⟩, ⟨1.0, 1⟩]⟩ :=
    congrArg Polynomial.mk (Term.normalize_of_canonical (by decide +kernel))
  have computed : differenceOfSquares.evaluate = .ok ⟨[⟨-1.0, 0⟩, ⟨1.0, 2⟩]⟩ := by
    change Polynomial.multiplyOrHalt .distribute (.ofTerms _) (.ofTerms _) = _
    rw [left, right]
    decide +kernel
  exact ⟨whole, small, computed, (terms_evaluate whole small computed).1⟩

end Tree

end SparsePolynomial
