import SparsePolynomial.Proofs.Text.Malformed
import SparsePolynomial.Proofs.Text.RoundTrip

/-!
Contract: printed texts, whether they can be read or not.

Owns:
- `Visible`, the characters that anything is printed with, NaN and infinities included;
- `readTerms_chars_eq_error`: an exponent past those of texts is printed all the same, and reading
  stops at the first term that has one.
-/

set_option autoImplicit false

namespace SparsePolynomial

open Binary64 (IsFinite)
open Text

/-! ## Characters -/

/-- An ASCII character that is neither a control character nor a space. -/
def Text.Visible (c : Char) : Prop := 32 < c.toNat ∧ c.toNat < 127

instance (c : Char) : Decidable (Visible c) := by unfold Visible; infer_instance

namespace Text

theorem visible_of_isDigit {c : Char} (digit : c.isDigit = true) : Visible c := by
  simp only [Char.isDigit, Bool.and_eq_true, decide_eq_true_eq] at digit
  obtain ⟨low, high⟩ := digit
  have atLeast : 48 ≤ c.toNat := low
  have atMost : c.toNat ≤ 57 := high
  exact ⟨by omega, by omega⟩

theorem visible_decimal (decimal : Decimal) : ∀ c ∈ decimal.text, Visible c := by
  rw [Decimal.text]
  simp only [List.forall_mem_append, List.forall_mem_cons]
  exact ⟨fun c member => visible_of_isDigit (Decimal.isDigit_of_mem_whole member), by decide,
    fun c member => visible_of_isDigit (Decimal.isDigit_of_mem_fraction member)⟩

theorem visible_ofCoefficient (coefficient : Float) :
    ∀ c ∈ ofCoefficient coefficient, Visible c := by
  have words : (∀ c ∈ ['N', 'a', 'N'], Visible c) ∧ (∀ c ∈ ['i', 'n', 'f'], Visible c) := by
    simp [Visible]
  have magnitude : ∀ c ∈ if IsFinite coefficient then
      (Decimal.shortest (Binary64.rank coefficient)).text else ['i', 'n', 'f'], Visible c := by
    by_cases finite : IsFinite coefficient
    · rw [if_pos finite]
      exact visible_decimal _
    · rw [if_neg finite]
      exact words.2
  rw [ofCoefficient]
  split
  · exact words.1
  · simp only
    split
    · exact List.forall_mem_cons.mpr ⟨by decide, magnitude⟩
    · exact magnitude

theorem visible_ofPower (exponent : UInt64) : ∀ c ∈ ofPower exponent, Visible c := by
  rw [ofPower]
  split
  · exact List.forall_mem_nil _
  · refine List.forall_mem_cons.mpr ⟨by decide, fun c member => visible_of_isDigit ?_⟩
    exact Nat.isDigit_of_mem_toDigits (by decide) (by decide) member

end Text

namespace Term

theorem visible_chars (term : Term) : ∀ c ∈ term.chars, Visible c :=
  List.forall_mem_append.mpr ⟨visible_ofCoefficient _, visible_ofPower _⟩

theorem visible_laterChars (term : Term) : ∀ c ∈ term.laterChars, Visible c := by
  rw [laterChars]
  split
  · exact List.forall_mem_cons.mpr ⟨by decide, term.visible_chars⟩
  · exact term.visible_chars

end Term

theorem Polynomial.visible_chars (p : Polynomial) : ∀ c ∈ p.chars, Visible c := by
  rw [chars]
  split
  · exact List.forall_mem_nil _
  · refine List.forall_mem_append.mpr ⟨Term.visible_chars _, fun c member => ?_⟩
    obtain ⟨term, _, written⟩ := List.mem_flatMap.mp member
    exact term.visible_laterChars c written

/-! ## Exponents past those of texts -/

namespace Term

/-- The text of a term that stands behind others, if there are any. -/
def charsBehind (before : List Term) (term : Term) : List Char :=
  if before = [] then term.chars else term.laterChars

/-- The sign is written in front of the first term only if it is a minus. -/
theorem exists_charsBehind_eq {term : Term} (finite : IsFinite term.coefficient)
    (kept : ¬ term.Negligible) (before : List Term) :
    ∃ sign? : Option Text.Sign, term.charsBehind before = signChars sign? ++ term.unsignedChars ∧
      (before ≠ [] → sign? ≠ none) := by
  by_cases first : before = []
  · rw [charsBehind, if_pos first, chars_of_finite finite]
    by_cases negative : Binary64.IsNegative term.coefficient
    · rw [if_pos negative]
      exact ⟨some .minus, rfl, fun later => absurd first later⟩
    · rw [if_neg negative]
      exact ⟨none, rfl, fun later => absurd first later⟩
  · rw [charsBehind, if_neg first, laterChars_of_finite finite kept]
    exact ⟨some term.writtenSign, rfl, fun _ => Option.some_ne_none _⟩

theorem read_unsignedChars_of_past {term : Term} (finite : IsFinite term.coefficient)
    (past : largestExponent < term.exponent.toNat) :
    (Body.ofChars term.unsignedChars).read = .error .exponent := by
  have body : Body.ofChars term.unsignedChars =
      .ofMagnitude (Binary64.rank term.coefficient) term.exponent := Body.ofChars_ofMagnitude _ _
  rw [body, Body.read_ofMagnitude finite, if_neg (Nat.not_le.mpr past)]

end Term

namespace Polynomial

theorem chars_append_cons (before : List Term) (term : Term) (after : List Term) :
    (Polynomial.mk (before ++ term :: after)).chars =
      (Polynomial.mk before).chars ++
        (term.charsBehind before ++ after.flatMap Term.laterChars) := by
  cases before with
  | nil => rfl
  | cons first before => simp [chars, Term.charsBehind]

/-- What stands in front of the first exponent past those of texts is read, and the term that has it
is reported. -/
theorem readTerms_chars_eq_error {p : Polynomial} (kept : ∀ term ∈ p.terms, ¬ term.Negligible)
    (finite : ∀ term ∈ p.terms, IsFinite term.coefficient) {before after : List Term} {term : Term}
    (parts : p.terms = before ++ term :: after)
    (inRange : ∀ own ∈ before, own.exponent.toNat ≤ largestExponent)
    (past : largestExponent < term.exponent.toNat) :
    readTerms p.chars = .error ⟨byteLength (Polynomial.mk before).chars,
      .invalid .exponent (term.charsBehind before)⟩ := by
  obtain ⟨terms⟩ := p
  obtain rfl : terms = before ++ term :: after := parts
  obtain ⟨keptBefore, keptTerm, keptAfter⟩ :=
    (List.forall_mem_append.trans (and_congr_right' List.forall_mem_cons)).mp kept
  obtain ⟨finiteBefore, finiteTerm, finiteAfter⟩ :=
    (List.forall_mem_append.trans (and_congr_right' List.forall_mem_cons)).mp finite
  have front : ∃ terms, readTerms (Polynomial.mk before).chars = .ok terms :=
    ⟨before, (readTerms_chars_of_kept keptBefore before).mpr
      ⟨fun own member => ⟨finiteBefore own member, inRange own member⟩, rfl⟩⟩
  obtain ⟨sign?, written, signed⟩ := Term.exists_charsBehind_eq finiteTerm keptTerm before
  obtain ⟨outside, part_iff⟩ := Body.read_ofChars_eq_error_iff.mp
    (Term.read_unsignedChars_of_past finiteTerm past)
  have malformed := @Malformed.term sign? _ _ _ (plain_unsignedChars term)
    term.unsignedChars_ne_nil (Segmentation.startsTerm_join (after.map Term.signedBody)) outside
    part_iff
  rw [← written, ← flatMap_laterChars finiteAfter keptAfter] at malformed
  rw [chars_append_cons]
  refine readTerms_of_malformed rfl front ?_ malformed
  by_cases first : before = []
  · left
    rw [first]
    rfl
  · right
    obtain ⟨sign, isSigned⟩ := Option.ne_none_iff_exists'.mp (signed first)
    rw [written, isSigned]
    exact Segmentation.startsTerm_sign sign []

end Polynomial

end SparsePolynomial
