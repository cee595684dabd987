import SparsePolynomial.Binary64.Basic
import SparsePolynomial.Term.Normal
import SparsePolynomial.Term.Search

/-!
Contract: polynomials as lists of terms, how they are made and what can be asked of them.

Owns:
- construction from terms in any order, from arrays and from single terms, each of which gives a
  canonical list;
- the causes for which arrays are refused;
- degree, leading term, coefficients and equality up to the tolerance.

Does not own: arithmetic (`Polynomial.Arithmetic`, `Polynomial.Product`) and text (`Text`).
-/

set_option autoImplicit false

namespace SparsePolynomial

/-- A polynomial lists the terms that do not count as zero, the highest exponent last. -/
structure Polynomial where
  terms : List Term
deriving DecidableEq, Repr

/-- Why arrays of coefficients and exponents are refused. -/
inductive ConstructionError where
  | lengthMismatch (coefficients exponents : Nat)
  | nonFiniteCoefficient (index : Nat)
deriving DecidableEq, Repr

namespace ConstructionError

def message : ConstructionError → String
  | lengthMismatch coefficients exponents =>
    s!"expected non-empty arrays of equal length, got {coefficients} coefficients and " ++
      s!"{exponents} exponents"
  | nonFiniteCoefficient index => s!"coefficient at index {index} is not finite"

end ConstructionError

namespace Polynomial

/-- The terms are in their one normal form. -/
def Canonical (p : Polynomial) : Prop := Term.Canonical p.terms

instance (p : Polynomial) : Decidable p.Canonical := by unfold Canonical; infer_instance

/-! ## Construction -/

/-- The polynomial with no terms. -/
def zero : Polynomial := ⟨[]⟩

instance : Inhabited Polynomial := ⟨zero⟩

/-- The sum of any terms. -/
def ofTerms (terms : List Term) : Polynomial := ⟨Term.normalize terms⟩

/-- The polynomial of one term. -/
def ofTerm (term : Term) : Polynomial := if term.Negligible then zero else ⟨[term]⟩

/-- `c * x ^ exponent`. -/
def monomial (c : Float) (exponent : UInt64) : Polynomial := ofTerm ⟨c, exponent⟩

def constant (c : Float) : Polynomial := monomial c 0

def one : Polynomial := constant 1.0

/-- The variable. -/
def x : Polynomial := monomial 1.0 1

/-- The terms that parallel arrays list: there has to be at least one, and every coefficient has to
be finite. Lengths are looked at first. -/
def termsOfArrays (coefficients : List Float) (exponents : List UInt32) :
    Except ConstructionError (List Term) :=
  if coefficients = [] ∨ coefficients.length ≠ exponents.length then
    .error (.lengthMismatch coefficients.length exponents.length)
  else
    match coefficients.findIdx? fun c => ¬ Binary64.IsFinite c with
    | some index => .error (.nonFiniteCoefficient index)
    | none => .ok (List.zipWith (fun c exponent => ⟨c, exponent.toUInt64⟩) coefficients exponents)

/-- The sum of the terms that parallel arrays list. -/
def ofArrays (coefficients : List Float) (exponents : List UInt32) :
    Except ConstructionError Polynomial :=
  (termsOfArrays coefficients exponents).map ofTerms

/-! ## Queries -/

def IsZero (p : Polynomial) : Prop := p.terms = []

instance (p : Polynomial) : Decidable p.IsZero := by unfold IsZero; infer_instance

/-- The number of terms. -/
def length (p : Polynomial) : Nat := p.terms.length

/-- The term of the highest exponent. -/
def leadingTerm? (p : Polynomial) : Option Term := p.terms.getLast?

/-- The highest exponent; zero has none. -/
def degree? (p : Polynomial) : Option UInt64 := p.leadingTerm?.map Term.exponent

/-- The coefficient of an exponent, zero where there is no term. -/
def coefficient (p : Polynomial) (exponent : UInt64) : Float :=
  ((Term.search exponent p.terms).map Term.coefficient).getD 0.0

/-- Equality up to the tolerance: as many terms, and each close to its counterpart. -/
def Close (p q : Polynomial) : Prop :=
  p.length = q.length ∧ ∀ pair ∈ p.terms.zip q.terms, pair.1.Close pair.2

instance (p q : Polynomial) : Decidable (p.Close q) := by unfold Close; infer_instance

@[simp] theorem terms_zero : zero.terms = [] := rfl

@[simp] theorem terms_ofTerms (terms : List Term) :
    (ofTerms terms).terms = Term.normalize terms := rfl

theorem canonical_zero : zero.Canonical := by decide

theorem canonical_ofTerm (term : Term) : (ofTerm term).Canonical := by
  unfold ofTerm
  split
  · exact canonical_zero
  · simpa [Canonical, Term.Canonical, Term.Ascending]

end Polynomial

end SparsePolynomial
