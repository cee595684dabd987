import SparsePolynomial.Polynomial.Arithmetic
import SparsePolynomial.Term.Sums

/-!
Contract: products of polynomials by either of two strategies.

Owns:
- `distribute`, the sum of the products of one operand with the terms of the other;
- `accumulate`, which collects the products of all pairs of terms by exponent and normalizes once;
- `multiply`, which answers zero operands itself and reports an exponent out of range;
- `multiplyOrHalt`, for callers to whom such an exponent is a defect of the program.

The strategies round and drop at different moments, so their results may differ within what the
tolerance drops. Both meet the pairs in the same order and report the same overflow.
-/

set_option autoImplicit false

namespace SparsePolynomial

/-- How the pairs of terms of a product are combined. -/
inductive Strategy where
  | distribute
  | accumulate
deriving DecidableEq, Repr

namespace Strategy

instance : Inhabited Strategy := ⟨accumulate⟩

def name : Strategy → String
  | distribute => "distribute"
  | accumulate => "accumulate"

end Strategy

/-- The end of a run, with the text that is left behind. -/
structure Halt where
  message : String
deriving DecidableEq, Repr

namespace Polynomial

/-- Adds up the products of `q` with the terms of `p`, the lowest exponent first. -/
def distribute (p q : Polynomial) : Except ExponentOverflow Polynomial :=
  p.terms.foldlM (fun total term => do return total.add (← q.mulTerm term)) zero

/-- The products of all pairs of terms: every term of `left` with all of `right`. -/
def pairProducts (left right : List Term) : Except ExponentOverflow (List Term) := do
  let rows ← left.mapM fun a => right.mapM fun b => a.mul b
  return rows.flatten

/-- One term for each exponent that two terms add up to. -/
def collectedProducts (p q : Polynomial) : Except ExponentOverflow (List Term) :=
  (pairProducts p.terms q.terms).map Term.sumByExponent

/-- Collects the products of all pairs of terms by exponent, then normalizes. -/
def accumulate (p q : Polynomial) : Except ExponentOverflow Polynomial :=
  (collectedProducts p q).map ofTerms

/-- The product by a strategy. -/
def multiplyBy (strategy : Strategy) (p q : Polynomial) : Except ExponentOverflow Polynomial :=
  match strategy with
  | .distribute => distribute p q
  | .accumulate => accumulate p q

/-- The product; zero operands are answered before any strategy is asked. -/
def multiply (strategy : Strategy) (p q : Polynomial) :
    Except ExponentOverflow Polynomial :=
  if p.IsZero ∨ q.IsZero then .ok zero else multiplyBy strategy p q

/-- Ends the run with the message of an overflow. -/
def orHalt (product : Except ExponentOverflow Polynomial) : Except Halt Polynomial :=
  product.mapError fun overflow => ⟨overflow.message⟩

/-- The product, where an exponent out of range ends the run. -/
def multiplyOrHalt (strategy : Strategy) (p q : Polynomial) : Except Halt Polynomial :=
  orHalt (multiply strategy p q)

@[simp] theorem multiply_zero_left (q : Polynomial) (strategy : Strategy) :
    multiply strategy zero q = .ok zero := by simp [multiply, IsZero]

@[simp] theorem multiply_zero_right (p : Polynomial) (strategy : Strategy) :
    multiply strategy p zero = .ok zero := by simp [multiply, IsZero]

end Polynomial

end SparsePolynomial
