import SparsePolynomial.Proofs.Integer.Tree
import SparsePolynomial.Proofs.Polynomial.Exponents
import SparsePolynomial.Proofs.Text.ReadBack

/-!
Contract: how far exponents can grow from those of inputs.

Owns:
- `IsInput`, the polynomials that are accepted as a text or as arrays, and `Tree.OfInputs`, the
  expressions over them;
- `Tree.weight`, how many inputs are multiplied with each other at most;
- `Tree.Computes`, a canonical result within the weight, with one lemma for each operation;
- that an expression of weight at most 2^32 + 1 is computed without an exponent overflow, and that
  every subexpression keeps its exponents within its weight.

The limit is exact: (2^32 + 1) * (2^32 - 1) is the largest exponent that there is.
-/

set_option autoImplicit false

namespace SparsePolynomial

open Text (largestExponent)

namespace Polynomial

/-! ## Inputs -/

/-- Accepted as a text or as arrays. -/
def IsInput (p : Polynomial) : Prop :=
  (∃ text, Text.parse text = .ok p) ∨
    ∃ coefficients exponents, ofArrays coefficients exponents = .ok p

theorem IsInput.exists_accepted {p : Polynomial} (input : p.IsInput) :
    ∃ terms, Accepted terms ∧ ofTerms terms = p := by
  rcases input with ⟨text, parsed⟩ | ⟨coefficients, exponents, built⟩
  · obtain ⟨terms, read, same⟩ := Traversal.map_eq_ok.mp parsed
    exact ⟨terms, accepted_of_readTerms read, same⟩
  · obtain ⟨terms, listed, same⟩ := Traversal.map_eq_ok.mp built
    exact ⟨terms, accepted_of_termsOfArrays listed, same⟩

theorem IsInput.canonical {p : Polynomial} (input : p.IsInput) : p.Canonical := by
  obtain ⟨terms, _, rfl⟩ := input.exists_accepted
  exact canonical_ofTerms terms

/-- No exponent is higher than so many times the highest one of a text. -/
def Within (p : Polynomial) (weight : Nat) : Prop :=
  ∀ n ∈ p.exponents, n.toNat ≤ weight * largestExponent

theorem Within.mono {p : Polynomial} {weight heavier : Nat} (within : p.Within weight)
    (atMost : weight ≤ heavier) : p.Within heavier :=
  fun n member => (within n member).trans (Nat.mul_le_mul_right _ atMost)

theorem IsInput.within {p : Polynomial} (input : p.IsInput) : p.Within 1 := by
  obtain ⟨terms, accepted, rfl⟩ := input.exists_accepted
  intro n member
  obtain ⟨term, inNormal, rfl⟩ := mem_exponents.mp member
  obtain ⟨own, inTerms, same⟩ := exists_exponent_of_mem_ofTerms inNormal
  rw [← same, Nat.one_mul]
  exact (accepted own inTerms).2

theorem within_add {p q : Polynomial} {weight : Nat} (left : p.Within weight)
    (right : q.Within weight) : (p.add q).Within weight := by
  intro n member
  exact (mem_exponents_of_add member).elim (left n) (right n)

theorem within_neg {p : Polynomial} {weight : Nat} (within : p.Within weight) :
    p.neg.Within weight := by
  rwa [Within, exponents_neg]

theorem within_scale {p : Polynomial} {weight : Nat} (within : p.Within weight) (c : Float) :
    (p.scale c).Within weight :=
  fun n member => within n (mem_exponents_of_scale member)

/-- The weights of factors add up. -/
theorem within_multiply {strategy : Strategy} {p q product : Polynomial}
    {leftWeight rightWeight : Nat} (canonical : p.Canonical) (ascending : Term.Ascending q.terms)
    (left : p.Within leftWeight) (right : q.Within rightWeight)
    (computed : multiply strategy p q = .ok product) :
    product.Within (leftWeight + rightWeight) := by
  intro n member
  obtain ⟨k, inLeft, m, inRight, sum⟩ :=
    mem_exponents_of_multiply canonical ascending computed member
  rw [sum, Nat.add_mul]
  exact Nat.add_le_add (left k inLeft) (right m inRight)

/-- The largest weight whose exponents are all in range. -/
def heaviest : Nat := 4294967297

theorem heaviest_mul_largestExponent : heaviest * largestExponent + 1 = UInt64.size := by decide

/-- Operands that are light together have a product. -/
theorem fit_of_within {p q : Polynomial} {leftWeight rightWeight : Nat}
    (left : p.Within leftWeight) (right : q.Within rightWeight)
    (light : leftWeight + rightWeight ≤ heaviest) : Fit p q := by
  apply fit_of_exponents
  intro k inLeft m inRight
  calc
    k.toNat + m.toNat ≤ leftWeight * largestExponent + rightWeight * largestExponent :=
      Nat.add_le_add (left k inLeft) (right m inRight)
    _ = (leftWeight + rightWeight) * largestExponent := (Nat.add_mul _ _ _).symm
    _ ≤ heaviest * largestExponent := Nat.mul_le_mul_right _ light
    _ < UInt64.size := Nat.lt_of_succ_le (Nat.le_of_eq heaviest_mul_largestExponent)

/-- The product of two inputs is always in range. -/
theorem exists_multiply_of_isInput (strategy : Strategy) {p q : Polynomial} (left : p.IsInput)
    (right : q.IsInput) : ∃ product, multiply strategy p q = .ok product :=
  exists_multiply strategy left.canonical (fit_of_within left.within right.within (by decide))

end Polynomial

namespace Tree

open SparsePolynomial.Polynomial (IsInput heaviest)

/-! ## Expressions over inputs -/

/-- What the outermost operation is applied to. -/
def operands : Tree → List Tree
  | leaf _ => []
  | neg operand | scale operand _ => [operand]
  | add left right | sub left right | multiply _ left right => [left, right]

/-- The first expression occurs in the second one. -/
inductive IsPart : Tree → Tree → Prop where
  | whole (tree : Tree) : IsPart tree tree
  | operand {part operand tree : Tree} (member : operand ∈ tree.operands)
      (isPart : IsPart part operand) : IsPart part tree

/-- Every leaf is an input. Inputs are canonical, so each of them is the leaf of its own terms. -/
def OfInputs : Tree → Prop
  | leaf terms => IsInput (.ofTerms terms)
  | neg operand | scale operand _ => operand.OfInputs
  | add left right | sub left right | multiply _ left right => left.OfInputs ∧ right.OfInputs

/-- An input counts once, a product as often as its factors together, and any other result as often
as the operand that counts more. -/
def weight : Tree → Nat
  | leaf _ => 1
  | neg operand | scale operand _ => operand.weight
  | add left right | sub left right => max left.weight right.weight
  | multiply _ left right => left.weight + right.weight

theorem weight_le_of_mem_operands {operand tree : Tree} (member : operand ∈ tree.operands) :
    operand.weight ≤ tree.weight := by
  cases tree <;> simp only [operands, List.mem_cons, List.not_mem_nil, or_false] at member
  case neg | scale => rw [member, weight]
  case add | sub => rcases member with rfl | rfl <;> simp [weight]
  case multiply => rcases member with rfl | rfl <;> simp [weight]

theorem OfInputs.of_mem_operands {operand tree : Tree} (inputs : tree.OfInputs)
    (member : operand ∈ tree.operands) : operand.OfInputs := by
  cases tree <;> simp only [operands, List.mem_cons, List.not_mem_nil, or_false] at member
  case neg | scale => exact member ▸ inputs
  case add | sub | multiply =>
    rcases member with rfl | rfl
    · exact inputs.1
    · exact inputs.2

/-- A part is made of inputs like the whole and does not weigh more. -/
theorem IsPart.inherits {part tree : Tree} (isPart : IsPart part tree) (inputs : tree.OfInputs) :
    part.OfInputs ∧ part.weight ≤ tree.weight := by
  induction isPart with
  | whole => exact ⟨inputs, Nat.le_refl _⟩
  | operand member _ inductionHypothesis =>
      obtain ⟨ofInputs, atMost⟩ := inductionHypothesis (inputs.of_mem_operands member)
      exact ⟨ofInputs, atMost.trans (weight_le_of_mem_operands member)⟩

/-! ## Evaluation -/

section Evaluation

variable {left right operand : Tree} {p q : Polynomial}

/-- The invariant of evaluation: a canonical result whose exponents are within the weight. -/
structure Computes (tree : Tree) (p : Polynomial) : Prop where
  computed : tree.evaluate = .ok p
  canonical : p.Canonical
  within : p.Within tree.weight

theorem computes_leaf {terms : List Term} (input : IsInput (.ofTerms terms)) :
    Computes (leaf terms) (.ofTerms terms) :=
  ⟨rfl, input.canonical, input.within⟩

theorem computes_add (leftComputes : left.Computes p) (rightComputes : right.Computes q) :
    Computes (add left right) (p.add q) where
  computed := by
    rw [evaluate, leftComputes.computed, rightComputes.computed]
    rfl
  canonical := Polynomial.canonical_add leftComputes.canonical rightComputes.canonical
  within := Polynomial.within_add (leftComputes.within.mono (le_max_left _ _))
    (rightComputes.within.mono (le_max_right _ _))

theorem computes_neg (computes : operand.Computes p) : Computes (neg operand) p.neg where
  computed := by
    rw [evaluate, computes.computed]
    rfl
  canonical := Polynomial.canonical_neg computes.canonical
  within := Polynomial.within_neg computes.within

/-- A difference is the sum with the negation. -/
theorem computes_sub (leftComputes : left.Computes p) (rightComputes : right.Computes q) :
    Computes (sub left right) (p.sub q) where
  computed := by
    rw [evaluate, leftComputes.computed, rightComputes.computed]
    rfl
  canonical := Polynomial.canonical_sub leftComputes.canonical rightComputes.canonical
  within := (computes_add leftComputes (computes_neg rightComputes)).within

theorem computes_scale (computes : operand.Computes p) (factor : Float) :
    Computes (scale operand factor) (p.scale factor) where
  computed := by
    rw [evaluate, computes.computed]
    rfl
  canonical := Polynomial.canonical_scale computes.canonical factor
  within := Polynomial.within_scale computes.within factor

/-- Only a product has to be light, or else there might be none. -/
theorem exists_computes_multiply (leftComputes : left.Computes p)
    (rightComputes : right.Computes q) (strategy : Strategy)
    (light : left.weight + right.weight ≤ heaviest) :
    ∃ product, Computes (multiply strategy left right) product := by
  obtain ⟨product, multiplied⟩ := Polynomial.exists_multiply strategy leftComputes.canonical
    (Polynomial.fit_of_within leftComputes.within rightComputes.within light)
  refine ⟨product, ?_, ?_, ?_⟩
  · rw [evaluate, leftComputes.computed, rightComputes.computed]
    exact Polynomial.multiplyOrHalt_eq_ok.mpr multiplied
  · exact Polynomial.canonical_multiply leftComputes.canonical rightComputes.canonical.1 multiplied
  · exact Polynomial.within_multiply leftComputes.canonical rightComputes.canonical.1
      leftComputes.within rightComputes.within multiplied

/-- Operands are no heavier than the whole, so an expression is computed if it is light itself. -/
theorem exists_computes {tree : Tree} (inputs : tree.OfInputs) (light : tree.weight ≤ heaviest) :
    ∃ p, tree.Computes p := by
  induction tree with
  | leaf terms => exact ⟨_, computes_leaf inputs⟩
  | add left right leftHypothesis rightHypothesis =>
      obtain ⟨p, leftComputes⟩ := leftHypothesis inputs.1 ((le_max_left _ _).trans light)
      obtain ⟨q, rightComputes⟩ := rightHypothesis inputs.2 ((le_max_right _ _).trans light)
      exact ⟨_, computes_add leftComputes rightComputes⟩
  | sub left right leftHypothesis rightHypothesis =>
      obtain ⟨p, leftComputes⟩ := leftHypothesis inputs.1 ((le_max_left _ _).trans light)
      obtain ⟨q, rightComputes⟩ := rightHypothesis inputs.2 ((le_max_right _ _).trans light)
      exact ⟨_, computes_sub leftComputes rightComputes⟩
  | neg operand inductionHypothesis =>
      obtain ⟨p, computes⟩ := inductionHypothesis inputs light
      exact ⟨_, computes_neg computes⟩
  | scale operand factor inductionHypothesis =>
      obtain ⟨p, computes⟩ := inductionHypothesis inputs light
      exact ⟨_, computes_scale computes factor⟩
  | multiply strategy left right leftHypothesis rightHypothesis =>
      obtain ⟨p, leftComputes⟩ := leftHypothesis inputs.1 ((Nat.le_add_right _ _).trans light)
      obtain ⟨q, rightComputes⟩ := rightHypothesis inputs.2 ((Nat.le_add_left _ _).trans light)
      exact exists_computes_multiply leftComputes rightComputes strategy light

end Evaluation

/-- Overflow takes a long chain of products: every part of an expression over inputs is computed,
and its exponents stay within its weight, as long as the expression weighs at most 2^32 + 1. -/
theorem evaluates_within_weight {tree : Tree} (inputs : tree.OfInputs)
    (light : tree.weight ≤ heaviest) :
    (∀ part, IsPart part tree → ∃ p, part.evaluate = .ok p ∧ p.Within part.weight) ∧
      (∀ strategy left right, IsPart (multiply strategy left right) tree →
        ∃ p q product, left.evaluate = .ok p ∧ right.evaluate = .ok q ∧
          Polynomial.multiply strategy p q = .ok product) ∧
        ∀ (strategy : Strategy) (p q : Polynomial), p.IsInput → q.IsInput →
          ∃ product, Polynomial.multiply strategy p q = .ok product := by
  have results (part : Tree) (isPart : IsPart part tree) :
      ∃ p, part.evaluate = .ok p ∧ p.Within part.weight := by
    obtain ⟨ofInputs, atMost⟩ := isPart.inherits inputs
    obtain ⟨p, computes⟩ := exists_computes ofInputs (atMost.trans light)
    exact ⟨p, computes.computed, computes.within⟩
  refine ⟨results, ?_, fun strategy p q => Polynomial.exists_multiply_of_isInput strategy⟩
  intro strategy left right isPart
  obtain ⟨product, computed, _⟩ := results _ isPart
  obtain ⟨p, leftComputed, rest⟩ := Traversal.bind_eq_ok.mp computed
  obtain ⟨q, rightComputed, multiplied⟩ := Traversal.bind_eq_ok.mp rest
  exact ⟨p, q, product, leftComputed, rightComputed,
    Polynomial.multiplyOrHalt_eq_ok.mp multiplied⟩

/-- The square of the highest power that can be written, less its negation. -/
def highestSquare : Tree :=
  sub (multiply .accumulate (leaf [⟨1.0, 4294967295⟩]) (leaf [⟨1.0, 4294967295⟩]))
    (neg (leaf [⟨1.0, 4294967295⟩]))

theorem evaluates_within_weight_highestSquare :
    highestSquare.OfInputs ∧ highestSquare.weight ≤ heaviest ∧
      (∀ part, IsPart part highestSquare → ∃ p, part.evaluate = .ok p ∧ p.Within part.weight) ∧
        (∀ strategy left right, IsPart (multiply strategy left right) highestSquare →
          ∃ p q product, left.evaluate = .ok p ∧ right.evaluate = .ok q ∧
            Polynomial.multiply strategy p q = .ok product) ∧
          ∀ (strategy : Strategy) (p q : Polynomial), p.IsInput → q.IsInput →
            ∃ product, Polynomial.multiply strategy p q = .ok product := by
  have input : IsInput (.ofTerms [⟨1.0, 4294967295⟩]) := .inl ⟨"x4294967295", rfl⟩
  have inputs : highestSquare.OfInputs := ⟨⟨input, input⟩, input⟩
  have light : highestSquare.weight ≤ heaviest := by decide
  exact ⟨inputs, light, evaluates_within_weight inputs light⟩

end Tree

end SparsePolynomial
