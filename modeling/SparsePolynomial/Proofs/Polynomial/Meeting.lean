import Mathlib.Data.List.ProdSigma
import SparsePolynomial.Proofs.Polynomial.Product

/-!
Contract: a product of polynomials as one scan for each exponent.

Owns:
- `meetingPairs`, the pairs of terms whose exponents add up to a given one, in the order in which
  both strategies meet them;
- `scan`, what distribution does with the pairs of one exponent, and `productSum`, what accumulation
  does with them;
- `distribute_scans`: distribution, which merges whole rows, does nothing but these scans.

Does not own: how accumulation lists its sums (`Proofs.Polynomial.Enumeration`).
-/

set_option autoImplicit false

namespace SparsePolynomial

namespace Coefficient

/-- Meets one more product. One that counts as zero is passed over, the first other one is taken as
it is, and a later one is added; a sum that counts as zero is forgotten. -/
def meet (present : Option Float) (product : Float) : Option Float :=
  if Negligible product then present
  else
    match present with
    | none => some product
    | some sum => if Negligible (sum + product) then none else some (sum + product)

theorem meet_of_negligible {c : Float} (negligible : Negligible c) (present : Option Float) :
    meet present c = present :=
  if_pos negligible

theorem meet_none {c : Float} (kept : ¬ Negligible c) : meet none c = some c := if_neg kept

theorem meet_some {c : Float} (kept : ¬ Negligible c) (sum : Float) :
    meet (some sum) c = keep (sum + c) :=
  if_neg kept

theorem add?_keep (present : Option Float) (product : Float) :
    add? present (keep product) = meet present product := by
  by_cases negligible : Negligible product
  · rw [meet_of_negligible negligible, keep_of_negligible negligible, add?_none_right]
  · rw [keep_of_not_negligible negligible]
    cases present with
    | none => exact (meet_none negligible).symm
    | some sum => exact (meet_some negligible sum).symm

theorem negligible_zero : Negligible 0.0 := by decide

/-- A sum of nothing counts as zero, so accumulation needs no case of its own for it. -/
theorem accumulated_eq_keep (products : List Float) :
    accumulated products = keep (products.foldl (fun sum c => sum + c) 0.0) := by
  cases products with
  | nil => exact (keep_of_negligible negligible_zero).symm
  | cons c rest =>
      rw [accumulated, List.foldl_cons, List.foldl_cons, collect, foldl_collect_some]
      rfl

end Coefficient

namespace Polynomial

open Term (Ascending coefficient? coefficients products)

/-! ## Pairs that meet -/

/-- The pairs of terms whose exponents add up to the exponent: every term of `p` in turn, with its
partners in `q`. -/
def meetingPairs (p q : Polynomial) (exponent : UInt64) : List (Term × Term) :=
  (p.terms.product q.terms).filter fun pair =>
    pair.1.exponent.toNat + pair.2.exponent.toNat = exponent.toNat

/-- The left exponents ascend strictly, so no term has two partners. -/
def AscendingPairs (pairs : List (Term × Term)) : Prop :=
  pairs.Pairwise fun earlier later => earlier.1.exponent < later.1.exponent

theorem mem_meetingPairs {p q : Polynomial} {exponent : UInt64} {a b : Term} :
    (a, b) ∈ meetingPairs p q exponent ↔
      a ∈ p.terms ∧ b ∈ q.terms ∧ a.exponent.toNat + b.exponent.toNat = exponent.toNat := by
  simp [meetingPairs, List.product, and_assoc]

/-- In the list of all pairs those of one left term stand together, by ascending right exponent. -/
theorem pairwise_product {left right : List Term} (leftAscending : Ascending left)
    (rightAscending : Ascending right) :
    (left.product right).Pairwise fun earlier later =>
      earlier.1.exponent < later.1.exponent ∨
        earlier.1 = later.1 ∧ earlier.2.exponent < later.2.exponent := by
  apply List.pairwise_flatMap.mpr
  constructor
  · intro a _
    apply List.pairwise_map.mpr
    exact rightAscending.imp fun less => .inr ⟨rfl, less⟩
  · apply leftAscending.imp
    intro a b less first inFirst second inSecond
    obtain ⟨_, _, rfl⟩ := List.mem_map.mp inFirst
    obtain ⟨_, _, rfl⟩ := List.mem_map.mp inSecond
    exact .inl less

theorem ascendingPairs_meetingPairs {p q : Polynomial} (left : Ascending p.terms)
    (right : Ascending q.terms) (exponent : UInt64) :
    AscendingPairs (meetingPairs p q exponent) := by
  apply ((pairwise_product left right).filter _).imp_of_mem
  intro earlier later inEarlier inLater order
  rcases order with less | ⟨same, less⟩
  · exact less
  · -- Two partners of one term would have the same exponent.
    have first := (mem_meetingPairs.mp inEarlier).2.2
    have second := (mem_meetingPairs.mp inLater).2.2
    rw [same] at first
    rw [UInt64.lt_iff_toNat_lt] at less
    omega

/-- Both strategies meet the products of exactly these pairs, in this order. -/
theorem productsAt_eq {p q : Polynomial} (fit : Fit p q) (exponent : UInt64) :
    productsAt p q exponent =
      (meetingPairs p q exponent).map fun pair => pair.1.coefficient * pair.2.coefficient := by
  have all : products p.terms q.terms =
      (p.terms.product q.terms).map fun pair => pair.1.product pair.2 := by
    simp [products, List.product, List.map_flatMap, Function.comp_def]
  have kept : (p.terms.product q.terms).filter
      (fun pair => (pair.1.product pair.2).exponent = exponent) = meetingPairs p q exponent := by
    apply List.filter_congr
    rintro ⟨a, b⟩ member
    obtain ⟨inLeft, inRight⟩ := List.pair_mem_product.mp member
    rw [decide_eq_decide, ← UInt64.toNat_inj, Term.toNat_exponent_product (fit a inLeft b inRight)]
  rw [← kept, productsAt, coefficients, all, List.filter_map, List.map_map]
  rfl

/-! ## The scan of an exponent -/

/-- Distribution of the pairs of one exponent, from left to right. -/
def scan (pairs : List (Term × Term)) : Option Float :=
  pairs.foldl
    (fun present pair => Coefficient.meet present (pair.1.coefficient * pair.2.coefficient)) none

/-- Accumulation of the pairs of one exponent, from left to right and from zero. -/
def productSum (pairs : List (Term × Term)) : Float :=
  pairs.foldl (fun sum pair => sum + pair.1.coefficient * pair.2.coefficient) 0.0

theorem distributed_productsAt {p q : Polynomial} (fit : Fit p q) (exponent : UInt64) :
    Coefficient.distributed (productsAt p q exponent) = scan (meetingPairs p q exponent) := by
  rw [productsAt_eq fit, Coefficient.distributed, List.foldl_map]
  simp only [Coefficient.add?_keep]
  rfl

theorem accumulated_productsAt {p q : Polynomial} (fit : Fit p q) (exponent : UInt64) :
    Coefficient.accumulated (productsAt p q exponent) =
      Coefficient.keep (productSum (meetingPairs p q exponent)) := by
  rw [productsAt_eq fit, Coefficient.accumulated_eq_keep, List.foldl_map]
  rfl

/-- The terms of a product by distribution are the results of the scans that end with one, and the
pairs of a scan come by ascending exponent of the left term. -/
theorem distribute_scans {p q : Polynomial} (left : p.Canonical) (right : q.Canonical)
    (fit : Fit p q) :
    ∃ product, distribute p q = .ok product ∧ Ascending product.terms ∧
      ∀ exponent, AscendingPairs (meetingPairs p q exponent) ∧
        ∀ c, ⟨c, exponent⟩ ∈ product.terms ↔ scan (meetingPairs p q exponent) = some c := by
  have computed := (distribute_eq_ok left q _).mpr ⟨fit, rfl⟩
  have ascending := (canonical_distribute left right.1 computed).1
  refine ⟨_, computed, ascending, fun exponent => ⟨?_, fun c => ?_⟩⟩
  · exact ascendingPairs_meetingPairs left.1 right.1 exponent
  · rw [Term.mem_iff_coefficient? ascending, coefficient?_distribute left right.1 computed,
      distributed_productsAt fit]

/-- `1 - x + x ^ 2`. -/
def alternating : Polynomial := ⟨[⟨1.0, 0⟩, ⟨-1.0, 1⟩, ⟨1.0, 2⟩]⟩

/-- `1 + x + x ^ 2`. -/
def geometric : Polynomial := ⟨[⟨1.0, 0⟩, ⟨1.0, 1⟩, ⟨1.0, 2⟩]⟩

theorem canonical_alternating : alternating.Canonical := by decide

theorem canonical_geometric : geometric.Canonical := by decide

theorem fit_alternating_geometric : Fit alternating geometric := by
  unfold Fit Term.Fits
  decide

theorem distribute_scans_alternating :
    alternating.Canonical ∧ geometric.Canonical ∧ Fit alternating geometric ∧
      ∃ product, distribute alternating geometric = .ok product ∧ Ascending product.terms ∧
        ∀ exponent, AscendingPairs (meetingPairs alternating geometric exponent) ∧
          ∀ c, ⟨c, exponent⟩ ∈ product.terms ↔
            scan (meetingPairs alternating geometric exponent) = some c :=
  ⟨canonical_alternating, canonical_geometric, fit_alternating_geometric,
    distribute_scans canonical_alternating canonical_geometric fit_alternating_geometric⟩

/-- In the second power a product cancels the first one, and the last one begins anew. -/
example : scan (meetingPairs alternating geometric 2) = some 1.0 := by decide

end Polynomial

end SparsePolynomial
