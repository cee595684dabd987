import SparsePolynomial.Proofs.Binary64.Product
import SparsePolynomial.Proofs.Polynomial.Exponents
import SparsePolynomial.Proofs.Polynomial.Strategies

/-!
Contract: products with a polynomial of one term.

Owns:
- `ExponentOverflow.swap`, an overflow seen from the other operand;
- `MultipliesByTerm`: whichever operand has one term and whichever strategy is asked, the result is
  that of multiplying by the term; a number, minus one and one are such terms.

Every exponent is met by one pair at most, so the strategies have nothing to add up.
-/

set_option autoImplicit false

namespace SparsePolynomial

/-- The same exponents in the other order. -/
def ExponentOverflow.swap (overflow : ExponentOverflow) : ExponentOverflow :=
  ⟨overflow.right, overflow.left⟩

/-! ## Rows -/

namespace Term

theorem product_comm (a b : Term) : a.product b = b.product a := by
  rw [product, product, Binary64.product_comm, UInt64.add_comm]

theorem product_constant (c : Float) : (constant c).product = fun term => term.scale c := by
  funext term
  rw [product, scale, constant, Binary64.product_comm, UInt64.zero_add]

theorem constant_fits (c : Float) (term : Term) : (constant c).Fits term := by
  rw [Fits, constant, UInt64.toNat_zero, Nat.zero_add]
  exact term.exponent.toNat_lt_size

theorem products_singleton_left (term : Term) (terms : List Term) :
    products [term] terms = terms.map term.product := by
  simp [products]

theorem products_singleton_right (term : Term) (terms : List Term) :
    products terms [term] = terms.map term.product := by
  simp [products, product_comm _ term, List.map_eq_flatMap]

end Term

namespace Polynomial

open Term (Ascending coefficient? coefficients products)

theorem ofTerm_of_negligible {term : Term} (negligible : term.Negligible) : ofTerm term = zero :=
  if_pos negligible

theorem ofTerm_of_not_negligible {term : Term} (kept : ¬ term.Negligible) :
    ofTerm term = ⟨[term]⟩ :=
  if_neg kept

/-- Operands whose pairs are those of a term with a polynomial have its row as their product. -/
theorem multiply_eq_row {l r p : Polynomial} {term : Term} (left : l.Canonical)
    (right : r.Canonical) (ascending : Ascending p.terms) (fits : ∀ own ∈ p.terms, term.Fits own)
    (fit : Fit l r) (pairs : products l.terms r.terms = p.terms.map term.product)
    (strategy : Strategy) : multiply strategy l r = .ok (p.row term) := by
  obtain ⟨product, computed⟩ := exists_multiply strategy left fit
  have shifted := Term.ascending_map_product ascending fits
  have isRow : product = p.row term := by
    apply ext_coefficient? (canonical_multiply left right.1 computed).1
      (canonical_row ascending fits).1
    intro exponent
    have alone : productsAt l r exponent =
        (coefficient? (p.terms.map term.product) exponent).toList := by
      rw [productsAt, pairs, Term.coefficients_of_ascending shifted]
    rw [coefficient?_multiply_of_toList left right.1 computed alone, row,
      Term.coefficient?_dropNegligible shifted]
  rw [computed, isRow]

/-! ## One term -/

theorem firstOverflow_singleton_left {p : Polynomial} (ascending : Ascending p.terms) (term : Term)
    (overflow : ExponentOverflow) :
    FirstOverflow ⟨[term]⟩ p overflow ↔ RowOverflow term.exponent p overflow := by
  rw [← firstFailure_rows (List.pairwise_singleton _ term) ascending,
    Traversal.firstFailure_cons]
  simp [Traversal.not_firstFailure_nil]

/-- The last operand has one exponent to overflow with, so the least one of the first operand is
that of the row. -/
theorem firstOverflow_singleton_right (p : Polynomial) (term : Term)
    (overflow : ExponentOverflow) :
    FirstOverflow p ⟨[term]⟩ overflow.swap ↔ RowOverflow term.exponent p overflow := by
  have row : {m | m ∈ p.exponents ∧ ∃ n ∈ (mk [term]).degree?, Exceeds m n} =
      {m | m ∈ p.exponents ∧ Exceeds term.exponent m} := by
    have degree : (mk [term]).degree? = some term.exponent := rfl
    simp [degree, exceeds_comm _ term.exponent]
  rw [FirstOverflow, row]
  constructor
  · intro ⟨least, ⟨isExponent, _⟩, _⟩
    exact ⟨List.mem_singleton.mp isExponent, least⟩
  · intro ⟨isExponent, least⟩
    refine ⟨least, ⟨List.mem_singleton.mpr isExponent, ?_⟩, ?_⟩
    · show Exceeds overflow.right overflow.left
      exact isExponent ▸ least.1.2.symm
    · intro n given
      have same : n = overflow.left := (List.mem_singleton.mp given.1).trans isExponent.symm
      exact same ▸ UInt64.le_refl _

variable {p : Polynomial}

theorem multiply_ofTerm_left (canonical : p.Canonical) (strategy : Strategy) (term : Term) :
    multiply strategy (ofTerm term) p = p.mulTerm term := by
  by_cases negligible : term.Negligible
  · rw [ofTerm_of_negligible negligible, multiply_zero_left, mulTerm_of_negligible p negligible]
  · have isTerm := ofTerm_of_not_negligible negligible
    have left := isTerm ▸ canonical_ofTerm term
    rw [isTerm]
    cases computed : p.mulTerm term with
    | error overflow =>
        rw [multiply_eq_error left canonical.1, firstOverflow_singleton_left canonical.1]
        exact ((mulTerm_eq_error canonical.1 term overflow).mp computed).2
    | ok product =>
        have ⟨fits, isRow⟩ := (mulTerm_eq_ok negligible product).mp computed
        rw [isRow]
        exact multiply_eq_row left canonical canonical.1 fits (by simpa [Fit] using fits)
          (Term.products_singleton_left term p.terms) strategy

theorem multiply_ofTerm_right (canonical : p.Canonical) (strategy : Strategy) (term : Term) :
    multiply strategy p (ofTerm term) = (p.mulTerm term).mapError ExponentOverflow.swap := by
  by_cases negligible : term.Negligible
  · rw [ofTerm_of_negligible negligible, multiply_zero_right, mulTerm_of_negligible p negligible]
    rfl
  · have isTerm := ofTerm_of_not_negligible negligible
    have right := isTerm ▸ canonical_ofTerm term
    rw [isTerm]
    cases computed : p.mulTerm term with
    | error overflow =>
        have inRow := ((mulTerm_eq_error canonical.1 term overflow).mp computed).2
        exact (multiply_eq_error canonical right.1 strategy overflow.swap).mpr
          ((firstOverflow_singleton_right p term overflow).mpr inRow)
    | ok product =>
        have ⟨fits, isRow⟩ := (mulTerm_eq_ok negligible product).mp computed
        rw [isRow]
        have fit : Fit p ⟨[term]⟩ := by
          simpa [Fit] using fun own member => (fits own member).symm
        exact multiply_eq_row canonical right canonical.1 fits fit
          (Term.products_singleton_right term p.terms) strategy

theorem mulTerm_constant (p : Polynomial) (c : Float) :
    p.mulTerm (Term.constant c) = .ok (p.scale c) := by
  by_cases negligible : Coefficient.Negligible c
  · rw [@mulTerm_of_negligible p (Term.constant c) negligible, scale_of_negligible p negligible]
  · rw [@mulTerm_eq_ok p (Term.constant c) negligible, row, Term.product_constant, scale,
      if_neg negligible]
    exact ⟨fun own _ => Term.constant_fits c own, rfl⟩

theorem neg_eq_scale (canonical : p.Canonical) : p.neg = p.scale (-1.0) := by
  have kept : ¬ Coefficient.Negligible (-1.0) := by decide
  have negated : (fun term : Term => term.scale (-1.0)) = Term.neg := by
    funext term
    rw [Term.scale, Binary64.product_neg_one, Term.neg]
  rw [scale, if_neg kept, negated]
  exact congrArg mk (Term.dropNegligible_of_canonical (canonical_neg canonical)).symm

theorem scale_one (canonical : p.Canonical) : p.scale 1.0 = p := by
  have kept : ¬ Coefficient.Negligible 1.0 := by decide
  have unchanged : (fun term : Term => term.scale 1.0) = id := by
    funext term
    rw [Term.scale, Binary64.product_one, id]
  rw [scale, if_neg kept, unchanged, List.map_id, Term.dropNegligible_of_canonical canonical]

/-- All ways to multiply a polynomial by one term give the same, to the bit. -/
structure MultipliesByTerm (p : Polynomial) : Prop where
  first : ∀ (strategy : Strategy) (term : Term),
    multiply strategy (ofTerm term) p = p.mulTerm term
  /-- An overflow names the exponents in the order of the operands. -/
  last : ∀ (strategy : Strategy) (term : Term),
    multiply strategy p (ofTerm term) = (p.mulTerm term).mapError ExponentOverflow.swap
  number : ∀ (strategy : Strategy) (c : Float),
    multiply strategy (constant c) p = .ok (p.scale c) ∧
      multiply strategy p (constant c) = .ok (p.scale c)
  negation : p.neg = p.scale (-1.0)
  unit : ∀ strategy : Strategy, multiply strategy one p = .ok p ∧ multiply strategy p one = .ok p

theorem multipliesByTerm (canonical : p.Canonical) : MultipliesByTerm p := by
  have number (strategy : Strategy) (c : Float) :
      multiply strategy (constant c) p = .ok (p.scale c) ∧
        multiply strategy p (constant c) = .ok (p.scale c) := by
    have scaled := mulTerm_constant p c
    constructor
    · exact (multiply_ofTerm_left canonical strategy (Term.constant c)).trans scaled
    · exact (multiply_ofTerm_right canonical strategy (Term.constant c)).trans (by rw [scaled]; rfl)
  exact {
    first := multiply_ofTerm_left canonical
    last := multiply_ofTerm_right canonical
    number := number
    negation := neg_eq_scale canonical
    unit := by
      intro strategy
      have unchanged := number strategy 1.0
      rwa [scale_one canonical] at unchanged
  }

/-- A polynomial of the highest exponent, with an infinite coefficient. -/
def towering : Polynomial := ⟨[⟨1.0, 0⟩, ⟨1.0 / 0.0, 18446744073709551615⟩]⟩

theorem multipliesByTerm_towering : towering.Canonical ∧ MultipliesByTerm towering := by
  have canonical : towering.Canonical := by decide +kernel
  exact ⟨canonical, multipliesByTerm canonical⟩

end Polynomial

end SparsePolynomial
