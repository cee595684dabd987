import Mathlib.Tactic.Ring
import SparsePolynomial.Proofs.Binary64.Rational
import SparsePolynomial.Proofs.Polynomial.Construction
import SparsePolynomial.Proofs.Polynomial.Meeting
import SparsePolynomial.Proofs.Polynomial.Strategies
import SparsePolynomial.Proofs.Term.Exponents

/-!
Contract: how much a product loses by dropping what counts as zero.

Owns:
- `ComputedExactly`, operands of which neither strategy rounds a product or a sum;
- one step of distribution loses at most the tolerance, so that a scan loses at most the tolerance
  for each pair;
- `bounded_loss`: accumulation stores the exact sum of an exponent or drops it as a whole, and
  distribution stays within the tolerance for each of the pairs that meet there.
-/

set_option autoImplicit false

namespace SparsePolynomial

open Binary64

namespace Coefficient

/-! ## Sums that are not rounded -/

/-- No sum that accumulation computes from `total` on is rounded. -/
def SumsExactly (total : Float) : List Float → Prop
  | [] => True
  | c :: rest => ExactSum total c ∧ SumsExactly (total + c) rest

/-- No sum that distribution computes from `present` on is rounded. -/
def ScansExactly (present : Option Float) : List Float → Prop
  | [] => True
  | c :: rest =>
    (¬ Negligible c → ∀ sum ∈ present, ExactSum sum c) ∧ ScansExactly (meet present c) rest

instance decidableSumsExactly :
    (total : Float) → (products : List Float) → Decidable (SumsExactly total products)
  | _, [] => .isTrue trivial
  | total, c :: rest =>
    have := decidableSumsExactly (total + c) rest
    inferInstanceAs (Decidable (_ ∧ _))

instance decidableScansExactly :
    (present : Option Float) → (products : List Float) → Decidable (ScansExactly present products)
  | _, [] => .isTrue trivial
  | present, c :: rest =>
    have := decidableScansExactly (meet present c) rest
    inferInstanceAs (Decidable (_ ∧ _))

/-- The exact sum of all products. -/
def exactTotal (products : List Float) : ℚ := (products.map rational).sum

/-- What a coefficient stands for; a missing one is zero. -/
def valueOf (present : Option Float) : ℚ := rational (present.getD 0.0)

theorem exactTotal_cons (c : Float) (rest : List Float) :
    exactTotal (c :: rest) = rational c + exactTotal rest :=
  List.sum_cons

theorem valueOf_none : valueOf none = 0 := rational_zero

theorem valueOf_some (c : Float) : valueOf (some c) = rational c := rfl

/-! ## Dropping what counts as zero -/

theorem isFinite_keep {c : Float} (finite : IsFinite c) : IsFinite ((keep c).getD 0.0) := by
  by_cases negligible : Negligible c
  · rw [keep_of_negligible negligible]
    exact isFinite_zero
  · rw [keep_of_not_negligible negligible]
    exact finite

theorem abs_keep_sub_le (c : Float) : |valueOf (keep c) - rational c| ≤ epsilon := by
  by_cases negligible : Negligible c
  · rw [keep_of_negligible negligible, valueOf_none, zero_sub, abs_neg]
    exact (negligible_iff_abs_rational_le c).mp negligible
  · rw [keep_of_not_negligible negligible, valueOf_some, sub_self, abs_zero]
    exact epsilon_nonneg

/-! ## Accumulation -/

theorem rational_foldl_add {total : Float} {products : List Float} (finite : IsFinite total)
    (exact : SumsExactly total products) :
    IsFinite (products.foldl (fun sum c => sum + c) total) ∧
      rational (products.foldl (fun sum c => sum + c) total) =
        rational total + exactTotal products := by
  induction products generalizing total with
  | nil => exact ⟨finite, (add_zero _).symm⟩
  | cons c rest inductionHypothesis =>
      have ⟨sum, exactRest⟩ := exact
      rw [List.foldl_cons, exactTotal_cons, ← add_assoc, ← sum.2]
      exact inductionHypothesis sum.1 exactRest

/-- The one decision of accumulation is about a number that is the exact sum. -/
theorem accumulated_of_sumsExactly {products : List Float} (exact : SumsExactly 0.0 products) :
    ∃ total, IsFinite total ∧ rational total = exactTotal products ∧
      accumulated products = keep total := by
  have ⟨finite, sum⟩ := rational_foldl_add isFinite_zero exact
  rw [rational_zero, zero_add] at sum
  exact ⟨_, finite, sum, accumulated_eq_keep products⟩

theorem isFinite_accumulated {products : List Float} (exact : SumsExactly 0.0 products) :
    IsFinite ((accumulated products).getD 0.0) := by
  have ⟨total, finite, _, kept⟩ := accumulated_of_sumsExactly exact
  rw [kept]
  exact isFinite_keep finite

theorem abs_accumulated_sub_le {products : List Float} (exact : SumsExactly 0.0 products) :
    |valueOf (accumulated products) - exactTotal products| ≤ epsilon := by
  have ⟨total, _, sum, kept⟩ := accumulated_of_sumsExactly exact
  rw [kept, ← sum]
  exact abs_keep_sub_le total

/-! ## Distribution -/

/-- One step loses a product or a sum that counts as zero, or nothing. -/
theorem abs_meet_sub_le {present : Option Float} {c : Float}
    (exact : ¬ Negligible c → ∀ sum ∈ present, ExactSum sum c) :
    |valueOf (meet present c) - (valueOf present + rational c)| ≤ epsilon := by
  by_cases negligible : Negligible c
  · rw [meet_of_negligible negligible, sub_add_cancel_left, abs_neg]
    exact (negligible_iff_abs_rational_le c).mp negligible
  · cases present with
    | none =>
        rw [meet_none negligible, valueOf_none, zero_add, valueOf_some, sub_self, abs_zero]
        exact epsilon_nonneg
    | some sum =>
        have total : rational (sum + c) = valueOf (some sum) + rational c :=
          (exact negligible sum rfl).2
        rw [meet_some negligible, ← total]
        exact abs_keep_sub_le (sum + c)

/-- Every product is charged at most one loss, that of the step which meets it. -/
theorem abs_foldl_meet_sub_le {present : Option Float} {products : List Float}
    (exact : ScansExactly present products) :
    |valueOf (products.foldl meet present) - (valueOf present + exactTotal products)| ≤
      products.length * epsilon := by
  induction products generalizing present with
  | nil => simp [exactTotal]
  | cons c rest inductionHypothesis =>
      have ⟨step, exactRest⟩ := exact
      have later := inductionHypothesis exactRest
      have now := abs_meet_sub_le step
      rw [List.foldl_cons, exactTotal_cons, List.length_cons]
      generalize rest.foldl meet (meet present c) = last at later ⊢
      -- What the rest loses from the new sum on comes on top of what this step has lost.
      have split : valueOf last - (valueOf present + (rational c + exactTotal rest)) =
          (valueOf last - (valueOf (meet present c) + exactTotal rest)) +
            (valueOf (meet present c) - (valueOf present + rational c)) := by ring
      calc |valueOf last - (valueOf present + (rational c + exactTotal rest))|
          ≤ |valueOf last - (valueOf (meet present c) + exactTotal rest)| +
              |valueOf (meet present c) - (valueOf present + rational c)| := by
            rw [split]
            exact abs_add_le _ _
        _ ≤ rest.length * epsilon + epsilon := add_le_add later now
        _ = ((rest.length + 1 : ℕ) : ℚ) * epsilon := by push_cast; ring

theorem isFinite_meet {present : Option Float} {c : Float}
    (finite : IsFinite (present.getD 0.0)) (finiteProduct : IsFinite c)
    (exact : ¬ Negligible c → ∀ sum ∈ present, ExactSum sum c) :
    IsFinite ((meet present c).getD 0.0) := by
  by_cases negligible : Negligible c
  · rwa [meet_of_negligible negligible]
  · cases present with
    | none => rwa [meet_none negligible]
    | some sum =>
        rw [meet_some negligible]
        exact isFinite_keep (exact negligible sum rfl).1

theorem isFinite_foldl_meet {present : Option Float} {products : List Float}
    (finite : IsFinite (present.getD 0.0)) (finiteProducts : ∀ c ∈ products, IsFinite c)
    (exact : ScansExactly present products) :
    IsFinite ((products.foldl meet present).getD 0.0) := by
  induction products generalizing present with
  | nil => exact finite
  | cons c rest inductionHypothesis =>
      have ⟨step, exactRest⟩ := exact
      have ⟨finiteFirst, finiteRest⟩ := List.forall_mem_cons.mp finiteProducts
      exact inductionHypothesis (isFinite_meet finite finiteFirst step) finiteRest exactRest

theorem distributed_eq_foldl_meet (products : List Float) :
    distributed products = products.foldl meet none := by
  simp only [distributed, add?_keep]

theorem isFinite_distributed {products : List Float} (finite : ∀ c ∈ products, IsFinite c)
    (exact : ScansExactly none products) : IsFinite ((distributed products).getD 0.0) := by
  rw [distributed_eq_foldl_meet]
  exact isFinite_foldl_meet isFinite_zero finite exact

theorem abs_distributed_sub_le {products : List Float} (exact : ScansExactly none products) :
    |valueOf (distributed products) - exactTotal products| ≤ products.length * epsilon := by
  have near := abs_foldl_meet_sub_le exact
  rwa [valueOf_none, zero_add, ← distributed_eq_foldl_meet] at near

end Coefficient

namespace Polynomial

open Coefficient
open Term (Ascending coefficient? products)

/-! ## Operands without rounding -/

/-- Neither strategy rounds a product or a sum on its way. -/
structure ComputedExactly (p q : Polynomial) : Prop where
  products : ∀ a ∈ p.terms, ∀ b ∈ q.terms, ExactProduct a.coefficient b.coefficient
  scans : ∀ exponent, ScansExactly none (productsAt p q exponent)
  sums : ∀ exponent, SumsExactly 0.0 (productsAt p q exponent)

/-- The exact sum of the products of the pairs that meet in an exponent. -/
def exactSum (p q : Polynomial) (exponent : UInt64) : ℚ :=
  ((meetingPairs p q exponent).map fun pair =>
    rational pair.1.coefficient * rational pair.2.coefficient).sum

section
variable {p q : Polynomial} (fit : Fit p q) (exact : ComputedExactly p q) (exponent : UInt64)

include fit in
theorem length_productsAt :
    (productsAt p q exponent).length = (meetingPairs p q exponent).length := by
  rw [productsAt_eq fit, List.length_map]

include fit exact

theorem isFinite_productsAt : ∀ c ∈ productsAt p q exponent, IsFinite c := by
  intro c member
  rw [productsAt_eq fit] at member
  have ⟨pair, meets, same⟩ := List.mem_map.mp member
  have ⟨inLeft, inRight, _⟩ := mem_meetingPairs.mp meets
  exact same ▸ (exact.products pair.1 inLeft pair.2 inRight).1

theorem exactTotal_productsAt :
    exactTotal (productsAt p q exponent) = exactSum p q exponent := by
  rw [productsAt_eq fit, exactTotal, List.map_map]
  apply congrArg List.sum
  apply List.map_congr_left
  intro pair meets
  have ⟨inLeft, inRight, _⟩ := mem_meetingPairs.mp meets
  exact (exact.products pair.1 inLeft pair.2 inRight).2

end

theorem rational_coefficient {p : Polynomial} (ascending : Ascending p.terms)
    (exponent : UInt64) :
    rational (p.coefficient exponent) = valueOf (coefficient? p.terms exponent) := by
  rw [coefficient_eq ascending]
  rfl

/-! ## The losses of both strategies -/

section
variable {p q product : Polynomial} (exact : ComputedExactly p q)

include exact

theorem isFinite_coefficient_distribute (left : p.Canonical) (right : q.Canonical)
    (computed : distribute p q = .ok product) (exponent : UInt64) :
    IsFinite (product.coefficient exponent) := by
  have fit := ((distribute_eq_ok left q product).mp computed).1
  rw [coefficient_eq (canonical_distribute left right.1 computed).1,
    coefficient?_distribute left right.1 computed]
  exact isFinite_distributed (isFinite_productsAt fit exact exponent) (exact.scans exponent)

theorem abs_distribute_sub_le (left : p.Canonical) (right : q.Canonical)
    (computed : distribute p q = .ok product) (exponent : UInt64) :
    |rational (product.coefficient exponent) - exactSum p q exponent| ≤
      (meetingPairs p q exponent).length * epsilon := by
  have fit := ((distribute_eq_ok left q product).mp computed).1
  rw [rational_coefficient (canonical_distribute left right.1 computed).1,
    coefficient?_distribute left right.1 computed, ← exactTotal_productsAt fit exact,
    ← length_productsAt fit]
  exact abs_distributed_sub_le (exact.scans exponent)

theorem isFinite_coefficient_accumulate (computed : accumulate p q = .ok product)
    (exponent : UInt64) : IsFinite (product.coefficient exponent) := by
  rw [coefficient_eq (canonical_accumulate computed).1, coefficient?_accumulate computed]
  exact isFinite_accumulated (exact.sums exponent)

theorem abs_accumulate_sub_le (computed : accumulate p q = .ok product) (exponent : UInt64) :
    |rational (product.coefficient exponent) - exactSum p q exponent| ≤ epsilon := by
  have fit := ((accumulate_eq_ok p q product).mp computed).1
  rw [rational_coefficient (canonical_accumulate computed).1, coefficient?_accumulate computed,
    ← exactTotal_productsAt fit exact]
  exact abs_accumulated_sub_le (exact.sums exponent)

/-- The one decision of accumulation is about the exact sum. -/
theorem coefficient?_accumulate_of_exact (computed : accumulate p q = .ok product)
    (exponent : UInt64) :
    ∃ total, rational total = exactSum p q exponent ∧
      coefficient? product.terms exponent = keep total := by
  have fit := ((accumulate_eq_ok p q product).mp computed).1
  have ⟨total, _, sum, kept⟩ := accumulated_of_sumsExactly (exact.sums exponent)
  rw [exactTotal_productsAt fit exact] at sum
  exact ⟨total, sum, (coefficient?_accumulate computed exponent).trans kept⟩

end

/-- What the two products lose in an exponent. -/
structure LossBounded (p q distributed accumulated : Polynomial) (exponent : UInt64) : Prop where
  finite : IsFinite (distributed.coefficient exponent) ∧ IsFinite (accumulated.coefficient exponent)
  stored : epsilon < |exactSum p q exponent| →
    ∃ c, coefficient? accumulated.terms exponent = some c ∧ rational c = exactSum p q exponent
  absent : |exactSum p q exponent| ≤ epsilon → coefficient? accumulated.terms exponent = none
  scattered : |rational (distributed.coefficient exponent) - exactSum p q exponent| ≤
    (meetingPairs p q exponent).length * epsilon
  apart :
    |rational (distributed.coefficient exponent) - rational (accumulated.coefficient exponent)| ≤
      ((meetingPairs p q exponent).length + 1) * epsilon

/-- Accumulation loses a sum as a whole or nothing of it. Distribution loses at most the tolerance
for each pair that meets, and so it is not farther from accumulation than one tolerance more. -/
theorem bounded_loss {p q : Polynomial} (left : p.Canonical) (right : q.Canonical)
    (fit : Fit p q) (exact : ComputedExactly p q) :
    ∃ distributed accumulated,
      distribute p q = .ok distributed ∧ accumulate p q = .ok accumulated ∧
        ∀ exponent, LossBounded p q distributed accumulated exponent := by
  have ⟨⟨distributed, distributedComputed⟩, accumulated, accumulatedComputed⟩ :=
    exists_products left fit
  refine ⟨distributed, accumulated, distributedComputed, accumulatedComputed, fun exponent => ?_⟩
  have distributedLoss := abs_distribute_sub_le exact left right distributedComputed exponent
  have accumulatedLoss := abs_accumulate_sub_le exact accumulatedComputed exponent
  have ⟨total, sum, kept⟩ := coefficient?_accumulate_of_exact exact accumulatedComputed exponent
  have drops := negligible_iff_abs_rational_le total
  rw [sum] at drops
  rw [abs_sub_comm] at accumulatedLoss
  exact {
    finite := ⟨isFinite_coefficient_distribute exact left right distributedComputed exponent,
      isFinite_coefficient_accumulate exact accumulatedComputed exponent⟩
    stored := fun large =>
      ⟨total, kept.trans (keep_of_not_negligible fun small => not_le.mpr large (drops.mp small)),
        sum⟩
    absent := fun small => kept.trans (keep_of_negligible (drops.mpr small))
    scattered := distributedLoss
    apart :=
      calc |rational (distributed.coefficient exponent) -
            rational (accumulated.coefficient exponent)|
          ≤ |rational (distributed.coefficient exponent) - exactSum p q exponent| +
              |exactSum p q exponent - rational (accumulated.coefficient exponent)| :=
            abs_sub_le _ _ _
        _ ≤ (meetingPairs p q exponent).length * epsilon + epsilon :=
            add_le_add distributedLoss accumulatedLoss
        _ = ((meetingPairs p q exponent).length + 1) * epsilon := (add_one_mul _ _).symm }

/-- `(3 + 3 * x) / 1024`. Its products are smaller than the tolerance, but two of them are not. -/
def dim : Polynomial := ⟨[⟨0.0029296875, 0⟩, ⟨0.0029296875, 1⟩]⟩

theorem forall_productsAt {p q : Polynomial} {P : List Float → Prop} (nil : P [])
    (occurring : ∀ term ∈ products p.terms q.terms, P (productsAt p q term.exponent))
    (exponent : UInt64) : P (productsAt p q exponent) := by
  by_cases occurs : exponent ∈ (products p.terms q.terms).map Term.exponent
  · have ⟨term, member, same⟩ := List.mem_map.mp occurs
    exact same ▸ occurring term member
  · rw [Term.mem_map_exponent_iff_coefficients, not_not] at occurs
    rw [productsAt, occurs]
    exact nil

theorem computedExactly_dim : ComputedExactly dim dim where
  products := by decide +kernel
  scans := forall_productsAt (P := ScansExactly none) trivial (by decide)
  sums := forall_productsAt (P := SumsExactly 0.0) trivial (by decide +kernel)

theorem bounded_loss_dim :
    dim.Canonical ∧ Fit dim dim ∧ ComputedExactly dim dim ∧
      ∃ distributed accumulated,
        distribute dim dim = .ok distributed ∧ accumulate dim dim = .ok accumulated ∧
          ∀ exponent, LossBounded dim dim distributed accumulated exponent := by
  have canonical : dim.Canonical := by decide
  have fit : Fit dim dim := by unfold Fit Term.Fits; decide
  exact ⟨canonical, fit, computedExactly_dim,
    bounded_loss canonical canonical fit computedExactly_dim⟩

/-- Distribution loses both products of the first power, and accumulation stores their sum. -/
example : Coefficient.distributed (productsAt dim dim 1) = none ∧
    Coefficient.accumulated (productsAt dim dim 1) = some 0.0000171661376953125 := by decide

end Polynomial

end SparsePolynomial
