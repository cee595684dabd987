import SparsePolynomial.Proofs.Binary64.Integer
import SparsePolynomial.Proofs.Polynomial.Product

/-!
Contract: sums of integer coefficients, exact as long as they stay small.

Owns:
- `exactly`, what a polynomial stores for an integer: nothing for zero, else the number itself;
- `total` and `magnitude`, the exact sum of a list of coefficients and of their absolute values;
- that normalization, distribution and accumulation all store the exact sum if the magnitude stays
  within `exactBound`, whatever cancels on the way.
-/

set_option autoImplicit false

namespace SparsePolynomial.Coefficient

open Binary64

/-- What is stored for an integer. -/
def exactly (n : Int) : Option Float := if n = 0 then none else some (ofInteger n)

theorem exactly_zero : exactly 0 = none := rfl

theorem exactly_of_ne_zero {n : Int} (nonzero : n ≠ 0) : exactly n = some (ofInteger n) :=
  if_neg nonzero

theorem keep_of_isInteger {c : Float} {n : Int} (integer : IsInteger c n)
    (small : n.natAbs ≤ exactBound) : keep c = exactly n := by
  by_cases zero : n = 0
  · rw [keep_of_negligible (integer.negligible_iff.mpr zero), zero, exactly_zero]
  · rw [keep_of_not_negligible (mt integer.negligible_iff.mp zero), exactly_of_ne_zero zero,
      integer.eq_of_ne_zero (isInteger_ofInteger small) zero]

/-! ## One step -/

theorem add?_exactly {m n : Int} (left : m.natAbs ≤ exactBound) (right : n.natAbs ≤ exactBound)
    (small : (m + n).natAbs ≤ exactBound) :
    add? (exactly m) (exactly n) = exactly (m + n) := by
  by_cases mZero : m = 0
  · rw [mZero, exactly_zero, add?_none_left, zero_add]
  · by_cases nZero : n = 0
    · rw [nZero, exactly_zero, add?_none_right, add_zero]
    · rw [exactly_of_ne_zero mZero, exactly_of_ne_zero nZero]
      exact keep_of_isInteger (isInteger_add (isInteger_ofInteger left) (isInteger_ofInteger right)
        small) small

theorem map_neg_exactly {n : Int} (small : n.natAbs ≤ exactBound) :
    ((exactly n).map fun c => -c) = exactly (-n) := by
  by_cases zero : n = 0
  · rw [zero, neg_zero, exactly_zero, Option.map_none]
  · have smallNeg : (-n).natAbs ≤ exactBound := by rwa [Int.natAbs_neg]
    rw [exactly_of_ne_zero zero, exactly_of_ne_zero (neg_ne_zero.mpr zero), Option.map_some,
      (isInteger_neg (isInteger_ofInteger small)).eq_of_ne_zero (isInteger_ofInteger smallNeg)
        (neg_ne_zero.mpr zero)]

theorem map_mul_exactly {m n : Int} {factor : Float} (integer : IsInteger factor n)
    (left : m.natAbs ≤ exactBound) (small : (m * n).natAbs ≤ exactBound) :
    ((exactly m).map fun c => c * factor).bind keep = exactly (m * n) := by
  by_cases zero : m = 0
  · rw [zero, zero_mul, exactly_zero, Option.map_none, Option.bind_none]
  · rw [exactly_of_ne_zero zero, Option.map_some, Option.bind_some]
    exact keep_of_isInteger (isInteger_mul (isInteger_ofInteger left) integer small) small

/-! ## Lists of coefficients -/

/-- The exact sum. -/
def total (coefficients : List Float) : Int := (coefficients.map integerOf).sum

/-- The exact sum of the absolute values. -/
def magnitude (coefficients : List Float) : Nat :=
  (coefficients.map fun c => (integerOf c).natAbs).sum

@[simp] theorem total_nil : total [] = 0 := rfl

theorem total_cons (c : Float) (rest : List Float) : total (c :: rest) = integerOf c + total rest :=
  List.sum_cons

theorem magnitude_cons (c : Float) (rest : List Float) :
    magnitude (c :: rest) = (integerOf c).natAbs + magnitude rest :=
  List.sum_cons

theorem natAbs_total_le (coefficients : List Float) :
    (total coefficients).natAbs ≤ magnitude coefficients := by
  induction coefficients with
  | nil => exact Nat.le_refl 0
  | cons c rest inductionHypothesis =>
      rw [total_cons, magnitude_cons]
      exact le_trans (Int.natAbs_add_le _ _) (Nat.add_le_add_left inductionHypothesis _)

/-- The invariant of every sum below: what has been added and what is still to come stay within the
exact range together. -/
theorem isInteger_foldl {start : Float} {n : Int} {coefficients : List Float}
    (integer : IsInteger start n) (whole : ∀ c ∈ coefficients, IntegerValued c)
    (small : n.natAbs + magnitude coefficients ≤ exactBound) :
    IsInteger (coefficients.foldl (fun sum c => sum + c) start) (n + total coefficients) := by
  induction coefficients generalizing start n with
  | nil => rwa [total_nil, add_zero]
  | cons c rest inductionHypothesis =>
      obtain ⟨wholeFirst, wholeRest⟩ := List.forall_mem_cons.mp whole
      rw [magnitude_cons] at small
      have grown := Int.natAbs_add_le n (integerOf c)
      rw [List.foldl_cons, total_cons, ← add_assoc]
      exact inductionHypothesis (isInteger_add integer wholeFirst (by omega)) wholeRest (by omega)

theorem keep_total? {coefficients : List Float} (whole : ∀ c ∈ coefficients, IntegerValued c)
    (small : magnitude coefficients ≤ exactBound) :
    (total? coefficients).bind keep = exactly (total coefficients) := by
  have within := le_trans (natAbs_total_le coefficients) small
  cases coefficients with
  | nil => rfl
  | cons first rest =>
      obtain ⟨wholeFirst, wholeRest⟩ := List.forall_mem_cons.mp whole
      rw [magnitude_cons] at small
      rw [total_cons] at within ⊢
      exact keep_of_isInteger (isInteger_foldl wholeFirst wholeRest small) within

theorem accumulated_eq {products : List Float} (whole : ∀ c ∈ products, IntegerValued c)
    (small : magnitude products ≤ exactBound) :
    accumulated products = exactly (total products) := by
  have within := le_trans (natAbs_total_le products) small
  cases products with
  | nil => rfl
  | cons first rest =>
      have sum := isInteger_foldl isInteger_zero whole (by rwa [Int.natAbs_zero, Nat.zero_add])
      rw [zero_add] at sum
      rw [accumulated, List.foldl_cons, collect, foldl_collect_some]
      exact keep_of_isInteger sum within

private theorem foldl_distribute {n : Int} {products : List Float}
    (whole : ∀ c ∈ products, IntegerValued c)
    (small : n.natAbs + magnitude products ≤ exactBound) :
    products.foldl (fun sum c => add? sum (keep c)) (exactly n) = exactly (n + total products) := by
  induction products generalizing n with
  | nil => rw [total_nil, add_zero, List.foldl_nil]
  | cons c rest inductionHypothesis =>
      obtain ⟨wholeFirst, wholeRest⟩ := List.forall_mem_cons.mp whole
      rw [magnitude_cons] at small
      have grown := Int.natAbs_add_le n (integerOf c)
      rw [List.foldl_cons, keep_of_isInteger wholeFirst (by omega),
        add?_exactly (by omega) (by omega) (by omega), inductionHypothesis wholeRest (by omega),
        total_cons, add_assoc]

theorem distributed_eq {products : List Float} (whole : ∀ c ∈ products, IntegerValued c)
    (small : magnitude products ≤ exactBound) :
    distributed products = exactly (total products) := by
  have sum := @foldl_distribute 0 products whole (by rwa [Int.natAbs_zero, Nat.zero_add])
  rwa [zero_add] at sum

end SparsePolynomial.Coefficient
