import Mathlib.Data.List.Chain
import SparsePolynomial.Proofs.Polynomial.Product

/-!
Contract: the operations that wrap a list without normalizing it, with the assertions of a debug
build.

Owns:
- `wrap`, which stops at a list that is not canonical, and the operations that end in it;
- that on canonical operands none of them stops: each gives what the operation itself gives.
-/

set_option autoImplicit false

namespace SparsePolynomial.Asserting

open Term (Ascending)

/-- The assertions about a list that is wrapped. -/
inductive Assertion where
  | ascending
  | notNegligible
deriving DecidableEq, Repr

/-- An operation ends early because it reports an overflow or because an assertion does not hold. -/
inductive Stop where
  | overflow (overflow : ExponentOverflow)
  | assertion (assertion : Assertion)
deriving DecidableEq, Repr

/-- Takes a list for canonical; neighbours and single terms are looked at. -/
def wrap (terms : List Term) : Except Stop Polynomial :=
  if ¬ terms.IsChain fun a b => a.exponent < b.exponent then .error (.assertion .ascending)
  else if ∃ term ∈ terms, term.Negligible then .error (.assertion .notNegligible)
  else .ok ⟨terms⟩

theorem wrap_of_canonical {terms : List Term} (canonical : Term.Canonical terms) :
    wrap terms = .ok ⟨terms⟩ := by
  have chain : terms.IsChain fun a b => a.exponent < b.exponent := canonical.1.isChain
  have kept : ¬ ∃ term ∈ terms, term.Negligible := by
    rintro ⟨term, member, negligible⟩
    exact canonical.2 term member negligible
  rw [wrap, if_neg (not_not_intro chain), if_neg kept]

/-! ## Operations without failures -/

def monomial (c : Float) (exponent : UInt64) : Except Stop Polynomial :=
  if Coefficient.Negligible c then .ok .zero else wrap [⟨c, exponent⟩]

def add (p q : Polynomial) : Except Stop Polynomial :=
  if p.IsZero then .ok q
  else if q.IsZero then .ok p
  else wrap (Term.merge p.terms q.terms)

def neg (p : Polynomial) : Except Stop Polynomial := wrap (p.terms.map Term.neg)

def sub (p q : Polynomial) : Except Stop Polynomial := do add p (← neg q)

def scale (p : Polynomial) (c : Float) : Except Stop Polynomial :=
  if Coefficient.Negligible c then .ok .zero
  else wrap (Term.dropNegligible (p.terms.map fun term => term.scale c))

theorem monomial_eq (c : Float) (exponent : UInt64) :
    monomial c exponent = .ok (Polynomial.monomial c exponent) := by
  have canonical := Polynomial.canonical_ofTerm ⟨c, exponent⟩
  rw [monomial, Polynomial.monomial, Polynomial.ofTerm]
  by_cases negligible : Coefficient.Negligible c
  · rw [if_pos negligible, if_pos (show Term.Negligible ⟨c, exponent⟩ from negligible)]
  · rw [Polynomial.ofTerm, if_neg (show ¬ Term.Negligible ⟨c, exponent⟩ from negligible)]
      at canonical
    rw [if_neg negligible, if_neg (show ¬ Term.Negligible ⟨c, exponent⟩ from negligible)]
    exact wrap_of_canonical canonical

theorem add_eq {p q : Polynomial} (left : p.Canonical) (right : q.Canonical) :
    add p q = .ok (p.add q) := by
  rw [add, Polynomial.add]
  by_cases leftZero : p.IsZero
  · rw [if_pos leftZero, if_pos leftZero]
  · by_cases rightZero : q.IsZero
    · rw [if_neg leftZero, if_neg leftZero, if_pos rightZero, if_pos rightZero]
    · rw [if_neg leftZero, if_neg leftZero, if_neg rightZero, if_neg rightZero]
      exact wrap_of_canonical (Term.canonical_merge left right)

theorem neg_eq {p : Polynomial} (canonical : p.Canonical) : neg p = .ok p.neg :=
  wrap_of_canonical (Polynomial.canonical_neg canonical)

theorem sub_eq {p q : Polynomial} (left : p.Canonical) (right : q.Canonical) :
    sub p q = .ok (p.sub q) := by
  rw [sub, neg_eq right]
  exact add_eq left (Polynomial.canonical_neg right)

theorem scale_eq {p : Polynomial} (canonical : p.Canonical) (c : Float) :
    scale p c = .ok (p.scale c) := by
  rw [scale, Polynomial.scale]
  by_cases negligible : Coefficient.Negligible c
  · rw [if_pos negligible, if_pos negligible]
  · rw [if_neg negligible, if_neg negligible]
    exact wrap_of_canonical
      (Term.canonical_dropNegligible (Term.ascending_map_scale canonical.1 c))

/-! ## Products -/

def mulTerm (p : Polynomial) (term : Term) : Except Stop Polynomial :=
  if term.Negligible then .ok .zero
  else do
    let products ← (p.terms.mapM fun own => term.mul own).mapError .overflow
    wrap (Term.dropNegligible products)

def distribute (p q : Polynomial) : Except Stop Polynomial :=
  p.terms.foldlM (fun total term => do add total (← mulTerm q term)) .zero

def accumulate (p q : Polynomial) : Except Stop Polynomial :=
  (Polynomial.accumulate p q).mapError .overflow

def multiplyBy (strategy : Strategy) (p q : Polynomial) :
    Except Stop Polynomial :=
  match strategy with
  | .distribute => distribute p q
  | .accumulate => accumulate p q

def multiply (strategy : Strategy) (p q : Polynomial) :
    Except Stop Polynomial :=
  if p.IsZero ∨ q.IsZero then .ok .zero else multiplyBy strategy p q

theorem mulTerm_eq {p : Polynomial} (canonical : p.Canonical) (term : Term) :
    mulTerm p term = (p.mulTerm term).mapError .overflow := by
  rw [mulTerm, Polynomial.mulTerm]
  by_cases negligible : term.Negligible
  · rw [if_pos negligible, if_pos negligible]
    rfl
  · rw [if_neg negligible, if_neg negligible]
    cases computed : p.terms.mapM fun own => term.mul own with
    | error overflow => rfl
    | ok products =>
        rcases (Term.mapM_mul_eq_ok term p.terms products).mp computed with ⟨fits, rfl⟩
        exact wrap_of_canonical (Polynomial.canonical_row canonical.1 fits)

/-- The invariant of a distribution: every row and every sum on the way is canonical. -/
theorem foldlM_add_mulTerm_eq {q total : Polynomial} (canonical : q.Canonical)
    (canonicalTotal : total.Canonical) (left : List Term) :
    left.foldlM (fun total term => do add total (← mulTerm q term)) total =
      (left.foldlM (fun (total : Polynomial) term => do return total.add (← q.mulTerm term))
        total).mapError .overflow := by
  induction left generalizing total with
  | nil => rfl
  | cons term left inductionHypothesis =>
      rw [List.foldlM_cons, List.foldlM_cons, mulTerm_eq canonical]
      cases computed : q.mulTerm term with
      | error overflow => rfl
      | ok row =>
          have canonicalRow := Polynomial.canonical_mulTerm canonical computed
          change (add total row >>= fun sum => left.foldlM _ sum) = _
          rw [add_eq canonicalTotal canonicalRow]
          exact inductionHypothesis (Polynomial.canonical_add canonicalTotal canonicalRow)

theorem distribute_eq {p q : Polynomial} (canonical : q.Canonical) :
    distribute p q = (Polynomial.distribute p q).mapError .overflow :=
  foldlM_add_mulTerm_eq canonical Polynomial.canonical_zero p.terms

theorem multiplyBy_eq (strategy : Strategy) {p q : Polynomial} (canonical : q.Canonical) :
    multiplyBy strategy p q = (Polynomial.multiplyBy strategy p q).mapError .overflow := by
  cases strategy with
  | distribute => exact distribute_eq canonical
  | accumulate => rfl

theorem multiply_eq (strategy : Strategy) {p q : Polynomial} (canonical : q.Canonical) :
    multiply strategy p q = (Polynomial.multiply strategy p q).mapError .overflow := by
  rw [multiply, Polynomial.multiply]
  by_cases zero : p.IsZero ∨ q.IsZero
  · rw [if_pos zero, if_pos zero]
    rfl
  · rw [if_neg zero, if_neg zero]
    exact multiplyBy_eq strategy canonical

end SparsePolynomial.Asserting
