import SparsePolynomial.Proofs.Polynomial.Exponents
import SparsePolynomial.Proofs.Polynomial.Meeting
import SparsePolynomial.Proofs.Polynomial.Strategies

/-!
Contract: the two ends of a product of polynomials.

Owns:
- `lowestTerm?`, and that no exponent is outside those of the lowest and the leading term;
- `meetingPairs_eq_singleton`: an exponent that only one left term reaches is met by one pair;
- `HasEnds`: at either end of a product stands the product of the two terms there, unless it counts
  as zero, and with it stands or falls the degree.

What happens to the exponents in between is left open.
-/

set_option autoImplicit false

namespace SparsePolynomial.Polynomial

open Coefficient (Negligible)
open Term (Ascending)

variable {p q : Polynomial}

/-! ## Outer terms -/

/-- The term of the lowest exponent. -/
def lowestTerm? (p : Polynomial) : Option Term := p.terms.head?

theorem degree?_of_leadingTerm? {high : Term} (leading : p.leadingTerm? = some high) :
    p.degree? = some high.exponent := by
  simp [degree?, leading]

theorem mem_of_leadingTerm? {high : Term} (leading : p.leadingTerm? = some high) :
    high ∈ p.terms :=
  List.mem_of_getLast? leading

theorem mem_of_lowestTerm? {low : Term} (lowest : p.lowestTerm? = some low) : low ∈ p.terms :=
  List.mem_of_head? lowest

theorem exponents_le_leadingTerm? (ascending : Ascending p.terms) {high : Term}
    (leading : p.leadingTerm? = some high) : ∀ n ∈ p.exponents, n ≤ high.exponent :=
  (degree?_eq_some ascending (degree?_of_leadingTerm? leading)).2

theorem lowestTerm?_le_exponents (ascending : Ascending p.terms) {low : Term}
    (lowest : p.lowestTerm? = some low) : ∀ n ∈ p.exponents, low.exponent ≤ n := by
  have ⟨rest, parts⟩ := List.head?_eq_some_iff.mp lowest
  rw [parts, Term.Ascending, List.pairwise_cons] at ascending
  rw [exponents, parts, List.forall_mem_map, List.forall_mem_cons]
  exact ⟨UInt64.le_refl _, fun term member => UInt64.le_of_lt (ascending.1 term member)⟩

/-- The degree is the highest of the exponents. -/
theorem degree?_eq_some_iff (ascending : Ascending p.terms) (degree : UInt64) :
    p.degree? = some degree ↔ degree ∈ p.exponents ∧ ∀ n ∈ p.exponents, n ≤ degree := by
  constructor
  · exact degree?_eq_some ascending
  · intro ⟨member, highest⟩
    cases found : p.degree? with
    | none =>
        rw [exponents, degree?_eq_none.mp found] at member
        cases member
    | some own =>
        have ⟨ownMember, ownHighest⟩ := degree?_eq_some ascending found
        exact congrArg some (UInt64.le_antisymm (highest own ownMember) (ownHighest degree member))

/-! ## Exponents of one pair -/

/-- Left exponents ascend in a list of meeting pairs, so pairs that share theirs are one pair. -/
theorem meetingPairs_eq_singleton (left : Ascending p.terms) (right : Ascending q.terms)
    {exponent : UInt64} {a b : Term} (meet : (a, b) ∈ meetingPairs p q exponent)
    (only : ∀ pair ∈ meetingPairs p q exponent, pair.1.exponent = a.exponent) :
    meetingPairs p q exponent = [(a, b)] := by
  have ascending := ascendingPairs_meetingPairs left right exponent
  cases pairs : meetingPairs p q exponent with
  | nil =>
      rw [pairs] at meet
      cases meet
  | cons first rest =>
      rw [pairs] at meet only ascending
      have ⟨firstOnly, restOnly⟩ := List.forall_mem_cons.mp only
      have later := (List.pairwise_cons.mp ascending).1
      have none : rest = [] := by
        apply List.eq_nil_iff_forall_not_mem.mpr
        intro pair member
        exact UInt64.ne_of_lt (later pair member) (firstOnly.trans (restOnly pair member).symm)
      rw [none] at meet ⊢
      rw [List.mem_singleton.mp meet]

/-- The polynomial has the product of two terms, unless that counts as zero. -/
def HoldsProduct (product : Polynomial) (a b : Term) : Prop :=
  ∀ c : Float, ⟨c, a.exponent + b.exponent⟩ ∈ product.terms ↔
    ¬ Negligible (a.coefficient * b.coefficient) ∧ c = a.coefficient * b.coefficient

theorem HoldsProduct.mem_exponents_iff {product : Polynomial} {a b : Term}
    (holds : HoldsProduct product a b) :
    a.exponent + b.exponent ∈ product.exponents ↔
      ¬ Negligible (a.coefficient * b.coefficient) := by
  constructor
  · intro member
    have ⟨term, inTerms, same⟩ := mem_exponents.mp member
    exact ((holds term.coefficient).mp (same ▸ inTerms)).1
  · intro kept
    exact mem_exponents_of_mem ((holds _).mpr ⟨kept, rfl⟩)

/-! ## Both ends -/

section Ends

variable {strategy : Strategy} {product : Polynomial} (left : p.Canonical) (right : q.Canonical)
  (fit : Fit p q) (computed : multiply strategy p q = .ok product)

include left right fit computed

/-- The product of two terms stays as it is where no other left term contributes. -/
theorem holdsProduct {a b : Term} (inLeft : a ∈ p.terms) (inRight : b ∈ q.terms)
    (only : ∀ k ∈ p.exponents, ∀ m ∈ q.exponents,
      k.toNat + m.toNat = a.exponent.toNat + b.exponent.toNat → k = a.exponent) :
    HoldsProduct product a b := by
  have total : (a.exponent + b.exponent).toNat = a.exponent.toNat + b.exponent.toNat :=
    Term.toNat_exponent_product (fit a inLeft b inRight)
  have meet : (a, b) ∈ meetingPairs p q (a.exponent + b.exponent) :=
    mem_meetingPairs.mpr ⟨inLeft, inRight, total.symm⟩
  have pairs := meetingPairs_eq_singleton left.1 right.1 meet (by
    intro pair member
    have ⟨isLeft, isRight, sum⟩ := mem_meetingPairs.mp member
    exact only _ (mem_exponents_of_mem isLeft) _ (mem_exponents_of_mem isRight) (sum.trans total))
  have alone : productsAt p q (a.exponent + b.exponent) =
      (some (a.coefficient * b.coefficient)).toList := by
    rw [productsAt_eq fit, pairs]
    rfl
  intro c
  rw [Term.mem_iff_coefficient? (canonical_multiply left right.1 computed).1,
    coefficient?_multiply_of_toList left right.1 computed alone, Option.bind_some,
    Coefficient.keep_eq_some_iff]

/-- Whoever goes up from the lowest exponent of one operand cannot come down in the other one. -/
theorem holdsProduct_lowest {low low' : Term} (lowest : p.lowestTerm? = some low)
    (lowest' : q.lowestTerm? = some low') : HoldsProduct product low low' := by
  apply holdsProduct left right fit computed (mem_of_lowestTerm? lowest)
    (mem_of_lowestTerm? lowest')
  intro k inP m inQ sum
  have above := UInt64.le_iff_toNat_le.mp (lowestTerm?_le_exponents left.1 lowest k inP)
  have above' := UInt64.le_iff_toNat_le.mp (lowestTerm?_le_exponents right.1 lowest' m inQ)
  exact UInt64.toNat_inj.mp (by omega)

theorem holdsProduct_leading {high high' : Term} (leading : p.leadingTerm? = some high)
    (leading' : q.leadingTerm? = some high') : HoldsProduct product high high' := by
  apply holdsProduct left right fit computed (mem_of_leadingTerm? leading)
    (mem_of_leadingTerm? leading')
  intro k inP m inQ sum
  have below := UInt64.le_iff_toNat_le.mp (exponents_le_leadingTerm? left.1 leading k inP)
  have below' := UInt64.le_iff_toNat_le.mp (exponents_le_leadingTerm? right.1 leading' m inQ)
  exact UInt64.toNat_inj.mp (by omega)

theorem exponents_le_of_multiply {high high' : Term} (leading : p.leadingTerm? = some high)
    (leading' : q.leadingTerm? = some high') :
    ∀ n ∈ product.exponents, n ≤ high.exponent + high'.exponent := by
  intro n member
  have total := Term.toNat_exponent_product
    (fit high (mem_of_leadingTerm? leading) high' (mem_of_leadingTerm? leading'))
  have ⟨k, inP, m, inQ, sum⟩ := mem_exponents_of_multiply left right.1 computed member
  have below := UInt64.le_iff_toNat_le.mp (exponents_le_leadingTerm? left.1 leading k inP)
  have below' := UInt64.le_iff_toNat_le.mp (exponents_le_leadingTerm? right.1 leading' m inQ)
  rw [UInt64.le_iff_toNat_le, sum]
  exact le_of_le_of_eq (Nat.add_le_add below below') total.symm

end Ends

/-- A product between the products of the lowest and of the leading terms of its operands. -/
structure HasEnds (p q product : Polynomial) (low low' high high' : Term) : Prop where
  sums : ∀ n ∈ product.exponents,
    ∃ k ∈ p.exponents, ∃ m ∈ q.exponents, n.toNat = k.toNat + m.toNat
  lowest : HoldsProduct product low low'
  highest : HoldsProduct product high high'
  /-- The degrees add up unless the product of the leading terms counts as zero. -/
  degree : product.degree? = some (high.exponent + high'.exponent) ↔
    ¬ Negligible (high.coefficient * high'.coefficient)
  smaller : Negligible (high.coefficient * high'.coefficient) →
    ∀ n ∈ product.degree?, n < high.exponent + high'.exponent

/-- Operands that are not zero have a lowest and a leading term; whatever comes in between, neither
strategy adds to the products of these or takes from them. -/
theorem hasEnds {strategy : Strategy} (left : p.Canonical) (right : q.Canonical) (fit : Fit p q)
    {low low' high high' : Term}
    (lowest : p.lowestTerm? = some low) (lowest' : q.lowestTerm? = some low')
    (leading : p.leadingTerm? = some high) (leading' : q.leadingTerm? = some high') :
    ∃ product, multiply strategy p q = .ok product ∧ HasEnds p q product low low' high high' := by
  have ⟨product, computed⟩ := exists_multiply strategy left fit
  have ascending := (canonical_multiply left right.1 computed).1
  have atHigh := holdsProduct_leading left right fit computed leading leading'
  have highest := exponents_le_of_multiply left right fit computed leading leading'
  exact ⟨product, computed, {
    sums := fun _ => mem_exponents_of_multiply left right.1 computed
    lowest := holdsProduct_lowest left right fit computed lowest lowest'
    highest := atHigh
    degree := by
      rw [degree?_eq_some_iff ascending, atHigh.mem_exponents_iff, and_iff_left highest]
    smaller := by
      intro negligible n found
      have member := (degree?_eq_some ascending found).1
      apply UInt64.lt_of_le_of_ne (highest n member)
      intro same
      exact atHigh.mem_exponents_iff.mp (same ▸ member) negligible
  }⟩

/-- A polynomial whose square keeps the lower end and loses the upper one. -/
def fading : Polynomial := ⟨[⟨1.0, 0⟩, ⟨0.003, 1⟩]⟩

theorem hasEnds_fading :
    fading.Canonical ∧ Fit fading fading ∧ fading.lowestTerm? = some ⟨1.0, 0⟩ ∧
      fading.leadingTerm? = some ⟨0.003, 1⟩ ∧
      ∃ product, multiply .accumulate fading fading = .ok product ∧
        HasEnds fading fading product ⟨1.0, 0⟩ ⟨1.0, 0⟩ ⟨0.003, 1⟩ ⟨0.003, 1⟩ := by
  have canonical : fading.Canonical := by decide +kernel
  have fit : Fit fading fading := by unfold Fit Term.Fits; decide +kernel
  have lowest : fading.lowestTerm? = some ⟨1.0, 0⟩ := rfl
  have leading : fading.leadingTerm? = some ⟨0.003, 1⟩ := rfl
  exact ⟨canonical, fit, lowest, leading,
    hasEnds canonical canonical fit lowest lowest leading leading⟩

end SparsePolynomial.Polynomial
