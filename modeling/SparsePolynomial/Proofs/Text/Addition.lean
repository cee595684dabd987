import SparsePolynomial.Proofs.Polynomial.Arithmetic
import SparsePolynomial.Proofs.Text.RoundTrip

/-!
Contract: addition as a merge, as a normal form and as a text.

Owns:
- `normalize_append`: the merge of two normal lists is the normal form of one behind the other;
- `joined`, the text of two polynomials one behind the other, and `chars_append`: it is the text of
  all terms together;
- `terms_add_eq`: the sum has the same terms whichever of the three ways it is computed.

Each exponent has at most one term of either operand, so both ways round the same sum once. The
terms that a joined text is read as need not ascend: they are printed by the same rule nevertheless.
-/

set_option autoImplicit false

namespace SparsePolynomial

open Binary64 (IsFinite)

/-! ## Merge and normal form -/

/-- What is kept of the coefficients of one exponent is their sum. -/
theorem Coefficient.total?_toList_append {a b : Option Float} (leftKept : a.bind keep = a)
    (rightKept : b.bind keep = b) :
    (total? (a.toList ++ b.toList)).bind keep = add? a b := by
  cases a with
  | none =>
      cases b with
      | none => rfl
      | some b => exact rightKept
  | some a =>
      cases b with
      | none => exact leftKept
      | some b => rfl

namespace Term

theorem bind_keep_coefficient? {terms : List Term} (canonical : Canonical terms)
    (exponent : UInt64) :
    (coefficient? terms exponent).bind Coefficient.keep = coefficient? terms exponent := by
  rw [← coefficient?_dropNegligible canonical.1, dropNegligible_of_canonical canonical]

/-- Adding in one pass and sorting everything together give the same terms. -/
theorem normalize_append {left right : List Term} (leftCanonical : Canonical left)
    (rightCanonical : Canonical right) : normalize (left ++ right) = merge left right := by
  apply eq_of_coefficient? (canonical_normalize _).1
    (ascending_merge leftCanonical.1 rightCanonical.1)
  intro exponent
  rw [coefficient?_normalize, coefficients_append, coefficients_of_ascending leftCanonical.1,
    coefficients_of_ascending rightCanonical.1, coefficient?_merge leftCanonical.1 rightCanonical.1]
  exact Coefficient.total?_toList_append (bind_keep_coefficient? leftCanonical exponent)
    (bind_keep_coefficient? rightCanonical exponent)

end Term

/-! ## Texts -/

/-- One text behind the other. A `+` stands between them if there is something on both sides and the
second brings no minus. -/
def Text.joined (left right : List Char) : List Char :=
  if left ≠ [] ∧ right ≠ [] ∧ right.head? ≠ some '-' then left ++ '+' :: right else left ++ right

namespace Term

theorem chars_ne_nil {term : Term} (finite : IsFinite term.coefficient) : term.chars ≠ [] := by
  rw [chars_of_finite finite]
  split
  · exact List.cons_ne_nil _ _
  · exact term.unsignedChars_ne_nil

/-- Whether a later term brings its own sign can be seen from its text. -/
theorem laterChars_eq {term : Term} (finite : IsFinite term.coefficient)
    (kept : ¬ term.Negligible) :
    term.laterChars = if term.chars.head? ≠ some '-' then '+' :: term.chars else term.chars := by
  rw [laterChars_of_finite finite kept, chars_of_finite finite, writtenSign]
  by_cases negative : Binary64.IsNegative term.coefficient
  · simp only [negative, if_true, List.head?_cons, ne_eq, not_true_eq_false, if_false,
      Text.Sign.char]
  · have plain : term.unsignedChars.head? ≠ some '-' := by
      intro minus
      have allowed := term.allowed_unsignedChars '-' (List.mem_of_head? minus)
      exact absurd (Text.Sign.ofChar?_of_allowed allowed) (by decide)
    simp only [negative, if_false, plain, ne_eq, not_false_eq_true, if_true, Text.Sign.char]

end Term

namespace Polynomial

open Text (joined parse)

/-- Two texts joined are the text of all terms together. -/
theorem chars_append {p q : Polynomial} (leftFinite : ∀ term ∈ p.terms, IsFinite term.coefficient)
    (rightFinite : ∀ term ∈ q.terms, IsFinite term.coefficient)
    (kept : ∀ term ∈ q.terms, ¬ term.Negligible) :
    (Polynomial.mk (p.terms ++ q.terms)).chars = joined p.chars q.chars := by
  obtain ⟨left⟩ := p
  obtain ⟨right⟩ := q
  cases left with
  | nil => simp [joined, chars]
  | cons a left =>
      cases right with
      | nil => simp [joined, chars]
      | cons b right =>
          have leftText := Term.chars_ne_nil (leftFinite a List.mem_cons_self)
          have rightText := Term.chars_ne_nil (rightFinite b List.mem_cons_self)
          have later := Term.laterChars_eq (rightFinite b List.mem_cons_self)
            (kept b List.mem_cons_self)
          have head : (b.chars ++ right.flatMap Term.laterChars).head? = b.chars.head? := by
            rw [List.head?_append, Option.or_of_isSome (List.isSome_head?.mpr rightText)]
          show a.chars ++ (left ++ b :: right).flatMap Term.laterChars =
            joined (a.chars ++ left.flatMap Term.laterChars)
              (b.chars ++ right.flatMap Term.laterChars)
          rw [joined, head, List.flatMap_append, List.flatMap_cons, later]
          by_cases minus : b.chars.head? = some '-'
          · simp [minus]
          · simp [minus, leftText, rightText]

/-- The sum has the same terms whether the operands are merged in one pass, their terms brought into
normal form together, or their texts joined and read. -/
theorem terms_add_eq {p q : Polynomial} (left : p.Canonical) (right : q.Canonical) :
    (p.add q).terms = Term.merge p.terms q.terms ∧
      (p.add q).terms = (ofTerms (p.terms ++ q.terms)).terms ∧
        (p.Writable → q.Writable →
          parse (String.ofList (joined p.chars q.chars)) = .ok (p.add q)) := by
  have sum : (p.add q).terms = Term.normalize (p.terms ++ q.terms) := by
    rw [terms_add, Term.normalize_append left right]
  refine ⟨terms_add p q, sum, ?_⟩
  intro leftWritable rightWritable
  have writable : (Polynomial.mk (p.terms ++ q.terms)).Writable :=
    List.forall_mem_append.mpr ⟨leftWritable, rightWritable⟩
  have kept : ∀ term ∈ p.terms ++ q.terms, ¬ term.Negligible :=
    List.forall_mem_append.mpr ⟨left.2, right.2⟩
  have read := (readTerms_chars_of_kept kept _).mpr ⟨writable, rfl⟩
  rw [chars_append (fun term member => (leftWritable term member).1)
    (fun term member => (rightWritable term member).1) right.2] at read
  rw [parse, String.toList_ofList, read]
  exact congrArg (fun terms => Except.ok (Polynomial.mk terms)) sum.symm

/-- `2 + 3x`. -/
def augend : Polynomial := ⟨[⟨2.0, 0⟩, ⟨3.0, 1⟩]⟩

/-- `-2 + x`, whose text brings its own sign. -/
def addend : Polynomial := ⟨[⟨-2.0, 0⟩, ⟨1.0, 1⟩]⟩

/-- The constants cancel. -/
theorem terms_add_eq_cancelling :
    augend.Canonical ∧ addend.Canonical ∧ augend.Writable ∧ addend.Writable ∧
      (augend.add addend).terms = Term.merge augend.terms addend.terms ∧
        (augend.add addend).terms = (ofTerms (augend.terms ++ addend.terms)).terms ∧
          parse (String.ofList (joined augend.chars addend.chars)) = .ok (augend.add addend) := by
  have left : augend.Canonical := by decide +kernel
  have right : addend.Canonical := by decide +kernel
  have leftWritable : augend.Writable := by decide +kernel
  have rightWritable : addend.Writable := by decide +kernel
  obtain ⟨merged, normal, read⟩ := terms_add_eq left right
  exact ⟨left, right, leftWritable, rightWritable, merged, normal,
    read leftWritable rightWritable⟩

end Polynomial

end SparsePolynomial
