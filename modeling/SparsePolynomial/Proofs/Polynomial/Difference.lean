import SparsePolynomial.Proofs.Polynomial.Arithmetic
import SparsePolynomial.Proofs.Polynomial.Closeness
import SparsePolynomial.Proofs.Polynomial.Strategies
import SparsePolynomial.Proofs.Term.Negation

/-!
Contract: differences of polynomials and what they say about equality up to the tolerance.

Owns:
- negation of a sum exponent by exponent, and `neg_sub`: exchanging the operands of a difference
  negates every coefficient to the bit;
- `close_iff_isZero_sub`: polynomials are close exactly if their difference is zero, in either
  order, and a polynomial less itself is zero exactly if it is finite.

A coefficient that has no counterpart does not count as zero, so it survives in the difference just
as it spoils the equality. Infinities and NaN fail on both sides.
-/

set_option autoImplicit false

namespace SparsePolynomial

open Binary64 (IsFinite)

namespace Coefficient

/-! ## One exponent -/

theorem add?_comm (a b : Option Float) : add? a b = add? b a := by
  cases a with
  | none => exact (add?_none_right b).symm
  | some a =>
      cases b with
      | none => rfl
      | some b => simp only [add?, Binary64.sum_comm]

/-- Negating both numbers negates what is kept of their sum. -/
theorem map_neg_keep_add (a b : Float) :
    (keep (a + b)).map (fun c => -c) = keep (-a + -b) :=
  ((Binary64.opposite_neg a).add (Binary64.opposite_neg b)).keep.symm

theorem map_neg_add? (a b : Option Float) :
    (add? a b).map (fun c => -c) = add? (a.map fun c => -c) (b.map fun c => -c) := by
  cases a with
  | none => rfl
  | some a =>
      cases b with
      | none => rfl
      | some b => exact map_neg_keep_add a b

theorem map_neg_map_neg (a : Option Float) :
    (a.map fun c => -c).map (fun c => -c) = a := by
  cases a with
  | none => rfl
  | some a => exact congrArg some (Binary64.neg_twice a)

/-- A difference is missing exactly if both numbers are missing or close. -/
theorem add?_neg_eq_none_iff (a b : Option Float) :
    add? a (b.map fun c => -c) = none ↔ Option.Rel Close a b := by
  cases a with
  | none =>
      cases b with
      | none => exact iff_of_true rfl .none
      | some b => exact iff_of_false nofun nofun
  | some a =>
      cases b with
      | none => exact iff_of_false nofun nofun
      | some b =>
          simp only [Option.map_some, add?, keep_eq_none_iff, ← Binary64.sub_eq_sum_neg,
            Option.rel_some_some, Close]

end Coefficient

namespace Polynomial

open Term (Ascending coefficient?)

/-! ## All exponents -/

theorem isZero_iff (p : Polynomial) :
    p.IsZero ↔ ∀ exponent, coefficient? p.terms exponent = none := by
  simp only [IsZero, Term.coefficient?_eq_none, List.eq_nil_iff_forall_not_mem]
  exact ⟨fun empty _ term member _ => empty term member,
    fun missing term member => missing term.exponent term member rfl⟩

theorem ascending_neg {p : Polynomial} (ascending : Ascending p.terms) : Ascending p.neg.terms :=
  Term.ascending_map_neg ascending

theorem ascending_sub {p q : Polynomial} (left : Ascending p.terms) (right : Ascending q.terms) :
    Ascending (p.sub q).terms :=
  ascending_add left (ascending_neg right)

theorem coefficient?_sub {p q : Polynomial} (left : Ascending p.terms) (right : Ascending q.terms)
    (exponent : UInt64) :
    coefficient? (p.sub q).terms exponent =
      Coefficient.add? (coefficient? p.terms exponent)
        ((coefficient? q.terms exponent).map fun c => -c) := by
  rw [sub, coefficient?_add left (ascending_neg right), coefficient?_neg]

/-- Polynomials are close exactly if nothing is left of their difference. -/
theorem isZero_sub_iff {p q : Polynomial} (left : Ascending p.terms)
    (right : Ascending q.terms) : (p.sub q).IsZero ↔ p.Close q := by
  simp only [isZero_iff, close_iff left right, coefficient?_sub left right,
    Coefficient.add?_neg_eq_none_iff]

/-- Exchanging the operands of a difference negates it. -/
theorem neg_sub {p q : Polynomial} (left : Ascending p.terms) (right : Ascending q.terms) :
    (q.sub p).neg = p.sub q := by
  apply ext_coefficient?
  · exact ascending_neg (ascending_sub right left)
  · exact ascending_sub left right
  · intro exponent
    calc
      coefficient? (q.sub p).neg.terms exponent =
          (Coefficient.add? (coefficient? q.terms exponent)
            ((coefficient? p.terms exponent).map fun c => -c)).map fun c => -c := by
        rw [coefficient?_neg, coefficient?_sub right left]
      _ = Coefficient.add? ((coefficient? q.terms exponent).map fun c => -c)
            (coefficient? p.terms exponent) := by
        rw [Coefficient.map_neg_add?, Coefficient.map_neg_map_neg]
      _ = coefficient? (p.sub q).terms exponent := by
        rw [Coefficient.add?_comm, coefficient?_sub left right]

theorem isZero_neg (p : Polynomial) : p.neg.IsZero ↔ p.IsZero := by
  simp [IsZero, neg]

/-- A polynomial less itself is zero exactly if every coefficient is finite. -/
theorem isZero_sub_self_iff {p : Polynomial} (ascending : Ascending p.terms) :
    (p.sub p).IsZero ↔ p.Finite := by
  rw [isZero_sub_iff ascending ascending, close_iff_forall₂, List.forall₂_same]
  apply forall₂_congr
  intro term _
  simp only [Term.Related, true_and, Coefficient.Close, Binary64.negligible_sub_self_iff]

/-- Equality up to the tolerance and subtraction agree, whatever the coefficients are. Exchanging
the operands negates the difference, and a polynomial less itself is zero exactly if it is
finite. -/
theorem close_iff_isZero_sub {p q : Polynomial} (left : p.Canonical) (right : q.Canonical) :
    (p.Close q ↔ (p.sub q).IsZero) ∧ ((p.sub q).IsZero ↔ (q.sub p).IsZero) ∧
      (p.sub q).terms = (q.sub p).neg.terms ∧ ((p.sub p).IsZero ↔ p.Finite) := by
  have flipped := neg_sub left.1 right.1
  refine ⟨(isZero_sub_iff left.1 right.1).symm, ?_, congrArg terms flipped.symm,
    isZero_sub_self_iff left.1⟩
  rw [← flipped, isZero_neg]

/-- `1 + ∞ x^3`, which is not even close to itself. -/
def unbounded : Polynomial := ⟨[⟨1.0, 0⟩, ⟨1.0 / 0.0, 3⟩]⟩

theorem close_iff_isZero_sub_unbounded :
    unbounded.Canonical ∧ one.Canonical ∧
      (unbounded.Close one ↔ (unbounded.sub one).IsZero) ∧
        ((unbounded.sub one).IsZero ↔ (one.sub unbounded).IsZero) ∧
          (unbounded.sub one).terms = (one.sub unbounded).neg.terms ∧
            ((unbounded.sub unbounded).IsZero ↔ unbounded.Finite) := by
  have canonical : unbounded.Canonical := by decide +kernel
  have oneCanonical : one.Canonical := canonical_ofTerm ⟨1.0, 0⟩
  exact ⟨canonical, oneCanonical, close_iff_isZero_sub canonical oneCanonical⟩

end Polynomial

end SparsePolynomial
