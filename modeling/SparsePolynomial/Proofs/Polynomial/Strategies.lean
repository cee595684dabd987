import SparsePolynomial.Proofs.Binary64.Exact
import SparsePolynomial.Proofs.Polynomial.Closeness
import SparsePolynomial.Proofs.Polynomial.Product

/-!
Contract: when the two strategies agree.

Owns:
- the exact condition under which both products are equal up to the tolerance, one exponent at a
  time and in terms of the products of pairs alone;
- agreement to the bit as long as neither a product nor a running sum counts as zero;
- that both strategies keep the same of an exponent in which at most one product is met;
- a square for which the strategies differ: every product of two of its terms counts as zero, but
  two of them together do not.
-/

set_option autoImplicit false

namespace SparsePolynomial

open Binary64

/-! ## Sums in which nothing is dropped -/

/-- Neither a product nor a sum on the way counts as zero, from the given sum on. -/
def Coefficient.KeptFrom (total : Float) : List Float → Prop
  | [] => True
  | c :: rest => ¬ Negligible c ∧ ¬ Negligible (total + c) ∧ KeptFrom (total + c) rest

/-- Neither a product nor a sum on the way counts as zero. -/
def Coefficient.Kept : List Float → Prop
  | [] => True
  | first :: rest => ¬ Negligible first ∧ KeptFrom first rest

theorem Coefficient.zero_add_of_not_negligible {c : Float} (kept : ¬ Negligible c) :
    0.0 + c = c := by
  apply zero_add_of_rank_pos
  rw [negligible_iff] at kept
  omega

theorem Coefficient.foldl_of_keptFrom {total : Float} {products : List Float}
    (keptTotal : ¬ Negligible total) (kept : KeptFrom total products) :
    products.foldl (fun total c => add? total (keep c)) (some total) =
      (products.foldl collect (some total)).bind keep := by
  induction products generalizing total with
  | nil => exact (keep_of_not_negligible keptTotal).symm
  | cons c rest inductionHypothesis =>
      rcases kept with ⟨keptProduct, keptSum, keptRest⟩
      have step : add? (some total) (some c) = some (total + c) :=
        keep_of_not_negligible keptSum
      rw [List.foldl_cons, List.foldl_cons, keep_of_not_negligible keptProduct, step]
      exact inductionHypothesis keptSum keptRest

/-- Where nothing is dropped on the way, both strategies compute the same sum. -/
theorem Coefficient.distributed_eq_accumulated {products : List Float} (kept : Kept products) :
    distributed products = accumulated products := by
  cases products with
  | nil => rfl
  | cons first rest =>
      rcases kept with ⟨keptFirst, keptRest⟩
      have start : collect none first = some first :=
        congrArg some (zero_add_of_not_negligible keptFirst)
      rw [distributed, accumulated, List.foldl_cons, List.foldl_cons, start,
        keep_of_not_negligible keptFirst]
      exact foldl_of_keptFrom keptFirst keptRest

/-! ## At most one product -/

/-- Only the sign of a zero depends on whether a sum starts at zero, and no zero is kept. -/
theorem Coefficient.keep_zero_add (c : Float) : keep (0.0 + c) = keep c := by
  rcases Nat.eq_zero_or_pos (rank c) with zero | positive
  · rw [← ofParts_sign_rank c, zero]
    cases sign c <;> decide
  · rw [zero_add_of_rank_pos positive]

theorem Coefficient.distributed_toList (product : Option Float) :
    distributed product.toList = product.bind keep := by
  cases product with
  | none => rfl
  | some c => exact add?_none_left (keep c)

theorem Coefficient.accumulated_toList (product : Option Float) :
    accumulated product.toList = product.bind keep := by
  cases product with
  | none => rfl
  | some c => exact keep_zero_add c

namespace Polynomial

def Finite (p : Polynomial) : Prop := ∀ term ∈ p.terms, IsFinite term.coefficient

instance (p : Polynomial) : Decidable p.Finite := by unfold Finite; infer_instance

/-! ## Agreement -/

theorem exists_products {p q : Polynomial} (left : p.Canonical) (fit : Fit p q) :
    (∃ distributed, distribute p q = .ok distributed) ∧
      ∃ accumulated, accumulate p q = .ok accumulated :=
  ⟨⟨_, (distribute_eq_ok left q _).mpr ⟨fit, rfl⟩⟩, ⟨_, (accumulate_eq_ok p q _).mpr ⟨fit, rfl⟩⟩⟩

/-- The strategies agree exactly where, in every exponent, what distribution keeps of the products
is close to what accumulation keeps of them. -/
theorem strategies_close_iff {p q : Polynomial} (left : p.Canonical) (right : q.Canonical)
    (fit : Fit p q) :
    ∃ distributed accumulated,
      distribute p q = .ok distributed ∧ accumulate p q = .ok accumulated ∧
        (distributed.Close accumulated ↔
          ∀ exponent,
            Option.Rel Coefficient.Close (Coefficient.distributed (productsAt p q exponent))
              (Coefficient.accumulated (productsAt p q exponent))) := by
  obtain ⟨⟨distributed, distributedComputed⟩, accumulated, accumulatedComputed⟩ :=
    exists_products left fit
  refine ⟨distributed, accumulated, distributedComputed, accumulatedComputed, ?_⟩
  rw [close_iff (canonical_distribute left right.1 distributedComputed).1
    (canonical_accumulate accumulatedComputed).1]
  simp only [coefficient?_distribute left right.1 distributedComputed,
    coefficient?_accumulate accumulatedComputed]

/-- A polynomial whose terms have negligible products. -/
def faint : Polynomial := ⟨[⟨0.003, 0⟩, ⟨0.003, 1⟩]⟩

/-- Two pairs meet in the first power of its square. -/
theorem strategies_close_iff_faint :
    faint.Canonical ∧ Fit faint faint ∧ (productsAt faint faint 1).length = 2 ∧
      ∃ distributed accumulated,
        distribute faint faint = .ok distributed ∧ accumulate faint faint = .ok accumulated ∧
          (distributed.Close accumulated ↔
            ∀ exponent,
              Option.Rel Coefficient.Close
                (Coefficient.distributed (productsAt faint faint exponent))
                (Coefficient.accumulated (productsAt faint faint exponent))) := by
  have canonical : faint.Canonical := by decide +kernel
  have fit : Fit faint faint := by unfold Fit Term.Fits; decide +kernel
  have met : (productsAt faint faint 1).length = 2 := by decide +kernel
  exact ⟨canonical, fit, met, strategies_close_iff canonical canonical fit⟩

/-- The strategies agree to the bit where neither a product nor a sum on the way is dropped. -/
theorem distribute_eq_accumulate {p q : Polynomial} (left : p.Canonical) (right : q.Canonical)
    (fit : Fit p q) (kept : ∀ exponent, Coefficient.Kept (productsAt p q exponent)) :
    distribute p q = accumulate p q := by
  obtain ⟨⟨distributed, distributedComputed⟩, accumulated, accumulatedComputed⟩ :=
    exists_products left fit
  have same : distributed = accumulated := by
    apply ext_coefficient? (canonical_distribute left right.1 distributedComputed).1
      (canonical_accumulate accumulatedComputed).1
    intro exponent
    rw [coefficient?_distribute left right.1 distributedComputed,
      coefficient?_accumulate accumulatedComputed]
    exact Coefficient.distributed_eq_accumulated (kept exponent)
  rw [distributedComputed, accumulatedComputed, same]

theorem coefficient?_multiplyBy_of_toList {strategy : Strategy} {p q result : Polynomial}
    (left : p.Canonical) (right : Term.Ascending q.terms)
    (computed : multiplyBy strategy p q = .ok result) {exponent : UInt64} {product : Option Float}
    (alone : productsAt p q exponent = product.toList) :
    Term.coefficient? result.terms exponent = product.bind Coefficient.keep := by
  cases strategy with
  | distribute =>
      rw [coefficient?_distribute left right computed, alone, Coefficient.distributed_toList]
  | accumulate =>
      rw [coefficient?_accumulate computed, alone, Coefficient.accumulated_toList]

theorem productsAt_of_isZero {p q : Polynomial} (zero : p.IsZero ∨ q.IsZero) (exponent : UInt64) :
    productsAt p q exponent = [] := by
  unfold IsZero at zero
  rcases zero with noTerms | noTerms
  · simp [productsAt, noTerms, Term.products, Term.coefficients]
  · simp [productsAt, noTerms, Term.products, Term.coefficients]

/-- Where at most one product is met, a product of polynomials holds it unless it counts as zero,
under either strategy. -/
theorem coefficient?_multiply_of_toList {strategy : Strategy} {p q result : Polynomial}
    (left : p.Canonical) (right : Term.Ascending q.terms)
    (computed : multiply strategy p q = .ok result) {exponent : UInt64} {product : Option Float}
    (alone : productsAt p q exponent = product.toList) :
    Term.coefficient? result.terms exponent = product.bind Coefficient.keep := by
  rw [multiply] at computed
  split at computed
  · rename_i isZero
    rw [productsAt_of_isZero isZero] at alone
    cases computed
    cases product with
    | none => rfl
    | some c => cases alone
  · exact coefficient?_multiplyBy_of_toList left right computed alone

/-! ## Disagreement -/

/-- Two products of `0.000009` meet in the first power: distribution drops both before they add up
to `0.000018`. -/
theorem strategies_disagree :
    ¬ ∀ p q : Polynomial, p.Canonical → q.Canonical → p.Finite → q.Finite → Fit p q →
      ∃ distributed accumulated,
        distribute p q = .ok distributed ∧ accumulate p q = .ok accumulated ∧
          distributed.Close accumulated := by
  intro agreement
  have canonical : faint.Canonical := by decide +kernel
  have finite : faint.Finite := by decide +kernel
  have fit : Fit faint faint := by unfold Fit Term.Fits; decide +kernel
  obtain ⟨distributed, accumulated, distributedComputed, accumulatedComputed, close⟩ :=
    agreement faint faint canonical canonical finite finite fit
  have firstPower := (close_iff (canonical_distribute canonical canonical.1 distributedComputed).1
    (canonical_accumulate accumulatedComputed).1).mp close 1
  rw [coefficient?_distribute canonical canonical.1 distributedComputed,
    coefficient?_accumulate accumulatedComputed] at firstPower
  have dropped : Coefficient.distributed (productsAt faint faint 1) = none := by decide +kernel
  have added : Coefficient.accumulated (productsAt faint faint 1) = some 0.000018 := by
    decide +kernel
  rw [dropped, added] at firstPower
  cases firstPower

end Polynomial

end SparsePolynomial
