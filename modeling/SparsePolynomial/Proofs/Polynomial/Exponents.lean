import SparsePolynomial.Proofs.Polynomial.Overflow

/-!
Contract: where the exponents of a result come from.

Owns:
- one lemma for each operation: sums, negations and multiples by a number have no exponents but
  those of their operands, and each exponent of a product is the sum of one exponent of either
  operand;
- `exists_multiply`: the product of operands whose exponents all add up.

Cancelled and dropped terms only take exponents away, so none of the lemmas asks for coefficients.
-/

set_option autoImplicit false

namespace SparsePolynomial.Polynomial

open Term (Ascending)

variable {p q : Polynomial} {n : UInt64}

/-! ## Operations that keep exponents -/

theorem mem_exponents : n ∈ p.exponents ↔ ∃ term ∈ p.terms, term.exponent = n :=
  List.mem_map

theorem mem_exponents_of_mem {term : Term} (member : term ∈ p.terms) :
    term.exponent ∈ p.exponents :=
  List.mem_map_of_mem member

theorem mem_exponents_of_add (member : n ∈ (p.add q).exponents) :
    n ∈ p.exponents ∨ n ∈ q.exponents := by
  obtain ⟨term, inSum, rfl⟩ := mem_exponents.mp member
  rw [terms_add] at inSum
  rcases Term.mem_merge inSum with inLeft | inRight | ⟨_, own, inLeft, same⟩
  · exact .inl (mem_exponents_of_mem inLeft)
  · exact .inr (mem_exponents_of_mem inRight)
  · exact .inl (same ▸ mem_exponents_of_mem inLeft)

theorem exponents_neg (p : Polynomial) : p.neg.exponents = p.exponents := by
  simp [exponents, neg]

theorem mem_exponents_of_scale {c : Float} (member : n ∈ (p.scale c).exponents) :
    n ∈ p.exponents := by
  rw [scale] at member
  split at member
  · cases member
  · obtain ⟨term, kept, rfl⟩ := mem_exponents.mp member
    obtain ⟨own, inTerms, rfl⟩ := List.mem_map.mp ((Term.dropNegligible_sublist _).subset kept)
    exact mem_exponents.mpr ⟨own, inTerms, rfl⟩

/-! ## Products -/

/-- Where a strategy keeps something there has been a product. -/
theorem productsAt_ne_nil {strategy : Strategy} {product : Polynomial} (left : p.Canonical)
    (right : Ascending q.terms) (computed : multiplyBy strategy p q = .ok product)
    (member : n ∈ product.exponents) : productsAt p q n ≠ [] := by
  obtain ⟨term, inTerms, rfl⟩ := mem_exponents.mp member
  have found := Term.coefficient?_of_mem (canonical_multiplyBy left right computed).1 inTerms
  intro empty
  cases strategy with
  | distribute =>
      rw [coefficient?_distribute left right computed, empty] at found
      cases found
  | accumulate =>
      rw [coefficient?_accumulate computed, empty] at found
      cases found

theorem exists_of_productsAt_ne_nil (fit : Fit p q) (nonempty : productsAt p q n ≠ []) :
    ∃ k ∈ p.exponents, ∃ m ∈ q.exponents, n.toNat = k.toNat + m.toNat := by
  obtain ⟨c, member⟩ := List.exists_mem_of_ne_nil _ nonempty
  obtain ⟨term, filtered, rfl⟩ := List.mem_map.mp member
  obtain ⟨inProducts, same⟩ := List.mem_filter.mp filtered
  obtain ⟨a, inLeft, inRow⟩ := List.mem_flatMap.mp inProducts
  obtain ⟨b, inRight, rfl⟩ := List.mem_map.mp inRow
  rw [← of_decide_eq_true same, Term.toNat_exponent_product (fit a inLeft b inRight)]
  exact ⟨_, mem_exponents_of_mem inLeft, _, mem_exponents_of_mem inRight, rfl⟩

theorem mem_exponents_of_multiply {strategy : Strategy} {product : Polynomial}
    (left : p.Canonical) (right : Ascending q.terms)
    (computed : multiply strategy p q = .ok product) (member : n ∈ product.exponents) :
    ∃ k ∈ p.exponents, ∃ m ∈ q.exponents, n.toNat = k.toNat + m.toNat := by
  rw [multiply] at computed
  split at computed
  · cases computed
    cases member
  · exact exists_of_productsAt_ne_nil (fit_of_multiplyBy left computed)
      (productsAt_ne_nil left right computed member)

theorem fit_of_exponents (fits : ∀ k ∈ p.exponents, ∀ m ∈ q.exponents,
    k.toNat + m.toNat < UInt64.size) : Fit p q :=
  fun _ inLeft _ inRight => fits _ (mem_exponents_of_mem inLeft) _ (mem_exponents_of_mem inRight)

/-- A product exists if every pair of terms has one. -/
theorem exists_multiply (strategy : Strategy) (left : p.Canonical) (fit : Fit p q) :
    ∃ product, multiply strategy p q = .ok product := by
  rw [multiply]
  split
  · exact ⟨zero, rfl⟩
  · cases strategy with
    | distribute => exact ⟨_, (distribute_eq_ok left q _).mpr ⟨fit, rfl⟩⟩
    | accumulate => exact ⟨_, (accumulate_eq_ok p q _).mpr ⟨fit, rfl⟩⟩

end SparsePolynomial.Polynomial
