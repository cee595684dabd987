import SparsePolynomial.Proofs.Polynomial.Arithmetic
import SparsePolynomial.Proofs.Term.Sums
import SparsePolynomial.Polynomial.Product

/-!
Contract: products by either strategy, exponent by exponent.

Owns:
- `Fit`, the condition under which a product exists at all;
- `Coefficient.distributed` and `Coefficient.accumulated`, what a strategy makes of the products of
  pairs that meet in one exponent, listed in the order in which they are met;
- that every product is canonical.
-/

set_option autoImplicit false

namespace SparsePolynomial

/-! ## The products of one exponent -/

/-- Adds up products one by one. A product that counts as zero is left out, and so is a sum. -/
def Coefficient.distributed (products : List Float) : Option Float :=
  products.foldl (fun total c => add? total (keep c)) none

/-- Adds up all products from zero. Only the last sum is left out if it counts as zero. -/
def Coefficient.accumulated (products : List Float) : Option Float :=
  (products.foldl collect none).bind keep

namespace Polynomial

open Term (Ascending coefficient? coefficients products)

/-- Every pair of terms has a product. -/
def Fit (p q : Polynomial) : Prop := ∀ a ∈ p.terms, ∀ b ∈ q.terms, a.Fits b

/-- The products of pairs that meet in the exponent, in the order in which they are met. -/
def productsAt (p q : Polynomial) (exponent : UInt64) : List Float :=
  coefficients (products p.terms q.terms) exponent

/-! ## Distribution -/

/-- The sum of all rows, from `total` on. -/
def addRows (q total : Polynomial) (left : List Term) : Polynomial :=
  left.foldl (fun total a => total.add (q.row a)) total

theorem distribute_eq_ok {p : Polynomial} (canonical : p.Canonical) (q result : Polynomial) :
    distribute p q = .ok result ↔ Fit p q ∧ result = addRows q zero p.terms := by
  apply Traversal.foldlM_eq_ok
  intro a member start finish
  exact Traversal.bind_pure_eq_ok (mulTerm_eq_ok (canonical.2 a member)) start.add finish

theorem canonical_addRows {q total : Polynomial} {left : List Term} (right : Ascending q.terms)
    (fit : ∀ a ∈ left, ∀ b ∈ q.terms, a.Fits b) (canonical : total.Canonical) :
    (addRows q total left).Canonical := by
  induction left generalizing total with
  | nil => exact canonical
  | cons a left inductionHypothesis =>
      rcases List.forall_mem_cons.mp fit with ⟨fits, fitLater⟩
      exact inductionHypothesis fitLater (canonical_add canonical (canonical_row right fits))

/-- Every row adds its one product to the sum of an exponent, if that product is worth keeping. -/
theorem coefficient?_addRows {q total : Polynomial} {left : List Term} (right : Ascending q.terms)
    (fit : ∀ a ∈ left, ∀ b ∈ q.terms, a.Fits b) (ascending : Ascending total.terms)
    (exponent : UInt64) :
    coefficient? (addRows q total left).terms exponent =
      (coefficients (products left q.terms) exponent).foldl
        (fun total c => Coefficient.add? total (Coefficient.keep c))
        (coefficient? total.terms exponent) := by
  induction left generalizing total with
  | nil => rfl
  | cons a left inductionHypothesis =>
      rcases List.forall_mem_cons.mp fit with ⟨fits, fitLater⟩
      have rowAscending := (canonical_row right fits).1
      have shifted := Term.ascending_map_product right fits
      rw [Term.coefficients_products_cons right fits, List.foldl_append, addRows, List.foldl_cons,
        ← addRows, inductionHypothesis fitLater (ascending_add ascending rowAscending),
        coefficient?_add ascending rowAscending, row, Term.coefficient?_dropNegligible shifted]
      cases coefficient? (q.terms.map a.product) exponent with
      | none => rw [Option.bind_none, Coefficient.add?_none_right]; rfl
      | some c => rfl

theorem coefficient?_distribute {p q result : Polynomial} (left : p.Canonical)
    (right : Ascending q.terms) (computed : distribute p q = .ok result) (exponent : UInt64) :
    coefficient? result.terms exponent =
      Coefficient.distributed (productsAt p q exponent) := by
  rcases (distribute_eq_ok left q result).mp computed with ⟨fit, rfl⟩
  exact coefficient?_addRows right fit Term.ascending_nil exponent

theorem canonical_distribute {p q result : Polynomial} (left : p.Canonical)
    (right : Ascending q.terms) (computed : distribute p q = .ok result) : result.Canonical := by
  rcases (distribute_eq_ok left q result).mp computed with ⟨fit, rfl⟩
  exact canonical_addRows right fit canonical_zero

/-! ## Accumulation -/

theorem pairProducts_eq_ok (left right result : List Term) :
    pairProducts left right = .ok result ↔
      (∀ a ∈ left, ∀ b ∈ right, a.Fits b) ∧ result = products left right := by
  have rows := @Traversal.mapM_eq_ok _ _ _ (fun a : Term => right.mapM fun b => a.mul b) _ _ left
    fun a _ row => Term.mapM_mul_eq_ok a right row
  exact Traversal.bind_pure_eq_ok rows List.flatten result

theorem collectedProducts_eq_ok (p q : Polynomial) (sums : List Term) :
    collectedProducts p q = .ok sums ↔
      Fit p q ∧ sums = Term.sumByExponent (products p.terms q.terms) := by
  rw [collectedProducts, Traversal.map_eq_bind]
  exact Traversal.bind_pure_eq_ok (pairProducts_eq_ok p.terms q.terms) Term.sumByExponent sums

theorem accumulate_eq_ok (p q result : Polynomial) :
    accumulate p q = .ok result ↔
      Fit p q ∧ result = ofTerms (Term.sumByExponent (products p.terms q.terms)) := by
  rw [accumulate, Traversal.map_eq_bind]
  exact Traversal.bind_pure_eq_ok (collectedProducts_eq_ok p q) ofTerms result

theorem coefficient?_accumulate {p q result : Polynomial}
    (computed : accumulate p q = .ok result) (exponent : UInt64) :
    coefficient? result.terms exponent =
      Coefficient.accumulated (productsAt p q exponent) := by
  rcases (accumulate_eq_ok p q result).mp computed with ⟨_, rfl⟩
  exact Term.coefficient?_normalize_sumByExponent _ exponent

theorem canonical_accumulate {p q result : Polynomial} (computed : accumulate p q = .ok result) :
    result.Canonical := by
  rcases (accumulate_eq_ok p q result).mp computed with ⟨_, rfl⟩
  exact canonical_ofTerms _

/-! ## Either strategy -/

theorem fit_of_multiplyBy {strategy : Strategy} {p q result : Polynomial} (left : p.Canonical)
    (computed : multiplyBy strategy p q = .ok result) : Fit p q := by
  cases strategy with
  | distribute => exact ((distribute_eq_ok left q result).mp computed).1
  | accumulate => exact ((accumulate_eq_ok p q result).mp computed).1

theorem canonical_multiplyBy {strategy : Strategy} {p q result : Polynomial} (left : p.Canonical)
    (right : Ascending q.terms) (computed : multiplyBy strategy p q = .ok result) :
    result.Canonical := by
  cases strategy with
  | distribute => exact canonical_distribute left right computed
  | accumulate => exact canonical_accumulate computed

theorem canonical_multiply {strategy : Strategy} {p q result : Polynomial} (left : p.Canonical)
    (right : Ascending q.terms) (computed : multiply strategy p q = .ok result) :
    result.Canonical := by
  rw [multiply] at computed
  split at computed
  · cases computed
    exact canonical_zero
  · exact canonical_multiplyBy left right computed

theorem multiplyOrHalt_eq_ok {strategy : Strategy} {p q result : Polynomial} :
    multiplyOrHalt strategy p q = .ok result ↔ multiply strategy p q = .ok result := by
  rw [multiplyOrHalt, orHalt]
  cases multiply strategy p q with
  | error overflow => exact iff_of_false nofun nofun
  | ok product => exact ⟨fun same => congrArg _ (Except.ok.inj same),
      fun same => congrArg _ (Except.ok.inj same)⟩

end Polynomial

end SparsePolynomial
