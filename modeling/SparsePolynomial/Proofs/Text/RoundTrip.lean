import SparsePolynomial.Proofs.Binary64.Order
import SparsePolynomial.Proofs.Term.Normal
import SparsePolynomial.Proofs.Text.Segment

/-!
Contract: reading back what has been printed.

Owns:
- `Writable`, the polynomials that have a text which can be read: finite coefficients, and exponents
  in the range of texts;
- that the text of a canonical polynomial reads back as that polynomial if it is writable, and as
  an error if it is not.

The cuts find the terms again because a canonical polynomial has no zero coefficient: each later
term starts with a sign, and there are no signs inside a term.
-/

set_option autoImplicit false

namespace SparsePolynomial

open Binary64
open Text

/-- The text of the term can be read. -/
def Term.Writable (term : Term) : Prop :=
  IsFinite term.coefficient ∧ term.exponent.toNat ≤ largestExponent

instance (term : Term) : Decidable term.Writable := by unfold Term.Writable; infer_instance

/-- The text of every term can be read. -/
def Polynomial.Writable (p : Polynomial) : Prop := ∀ term ∈ p.terms, term.Writable

instance (p : Polynomial) : Decidable p.Writable := by unfold Polynomial.Writable; infer_instance

namespace Term

/-! ## One term -/

/-- The sign that a term is written with. -/
def writtenSign (term : Term) : Text.Sign :=
  if IsNegative term.coefficient then .minus else .plus

/-- The text of a term of finite coefficient without its sign. -/
def unsignedChars (term : Term) : List Char :=
  (Decimal.shortest (rank term.coefficient)).text ++ ofPower term.exponent

/-- The sign and the text behind it. -/
def signedBody (term : Term) : Text.Sign × List Char := (term.writtenSign, term.unsignedChars)

theorem chars_of_finite {term : Term} (finite : IsFinite term.coefficient) :
    term.chars =
      if IsNegative term.coefficient then '-' :: term.unsignedChars else term.unsignedChars := by
  have notNaN : ¬ IsNaN term.coefficient := Nat.not_lt.mpr (Nat.le_of_lt finite)
  rw [chars, ofCoefficient, if_neg notNaN, if_pos finite]
  by_cases negative : IsNegative term.coefficient
  · rw [if_pos negative, if_pos negative]
    rfl
  · rw [if_neg negative, if_neg negative]
    rfl

theorem rank_pos_of_not_negligible {term : Term} (kept : ¬ term.Negligible) :
    0 < rank term.coefficient := by
  have large := mt (negligible_iff term.coefficient).mpr kept
  omega

/-- A later term always starts with its sign. -/
theorem laterChars_of_finite {term : Term} (finite : IsFinite term.coefficient)
    (kept : ¬ term.Negligible) :
    term.laterChars = term.writtenSign.char :: term.unsignedChars := by
  have positive := rank_pos_of_not_negligible kept
  rw [laterChars, chars_of_finite finite, writtenSign]
  by_cases negative : IsNegative term.coefficient
  · have notAbove : ¬ 0.0 < term.coefficient := by
      rw [zero_lt_iff]
      intro above
      have signed : sign term.coefficient = .negative := if_pos negative
      rw [signed] at above
      cases above.1
    rw [if_neg notAbove, if_pos negative, if_pos negative]
    rfl
  · have above : 0.0 < term.coefficient :=
      (zero_lt_iff _).mpr ⟨if_neg negative, positive, Nat.le_of_lt finite⟩
    rw [if_pos above, if_neg negative, if_neg negative]
    rfl

theorem apply_writtenSign {term : Term} (finite : IsFinite term.coefficient) :
    term.writtenSign.apply (ofRank (rank term.coefficient)) = term.coefficient := by
  have atMost := Nat.le_of_lt finite
  rw [ofRank_eq_ofParts atMost, writtenSign]
  by_cases negative : IsNegative term.coefficient
  · have signed : sign term.coefficient = .negative := if_pos negative
    rw [if_pos negative]
    show -ofParts .positive (rank term.coefficient) = term.coefficient
    rw [neg_eq_ofParts, sign_ofParts _ atMost, rank_ofParts _ atMost]
    show ofParts .negative (rank term.coefficient) = term.coefficient
    rw [← signed, ofParts_sign_rank]
  · have signed : sign term.coefficient = .positive := if_neg negative
    rw [if_neg negative]
    show ofParts .positive (rank term.coefficient) = term.coefficient
    rw [← signed, ofParts_sign_rank]

/-- A term of finite coefficient reads back as itself unless its exponent is out of range. -/
theorem readSigned_signedBody {term : Term} (finite : IsFinite term.coefficient) :
    readSigned term.signedBody =
      if term.exponent.toNat ≤ largestExponent then some term else none := by
  have body : Body.ofChars term.signedBody.2 =
      .ofMagnitude (rank term.coefficient) term.exponent := Body.ofChars_ofMagnitude _ _
  rw [readSigned, body, Body.read_ofMagnitude finite]
  by_cases small : term.exponent.toNat ≤ largestExponent
  · rw [if_pos small, if_pos small]
    show some (Term.mk (term.writtenSign.apply _) term.exponent) = some term
    rw [apply_writtenSign finite]
  · rw [if_neg small, if_neg small]

theorem allowed_unsignedChars (term : Term) : ∀ c ∈ term.unsignedChars, Body.Allowed c := by
  apply Body.allowed_of_leftover
  rw [unsignedChars, Body.ofChars_ofMagnitude]
  rfl

theorem unsignedChars_ne_nil (term : Term) : term.unsignedChars ≠ [] :=
  List.append_ne_nil_of_left_ne_nil
    (List.append_ne_nil_of_left_ne_nil (Decimal.whole_ne_nil _) _) _

/-- The text of NaN and of the infinities has a letter that no term is read with. -/
theorem exists_not_allowed {term : Term} (notFinite : ¬ IsFinite term.coefficient) :
    ∃ c ∈ term.chars, ¬ Body.Allowed c ∧ Sign.ofChar? c = none := by
  have letters : (¬ Body.Allowed 'N' ∧ Sign.ofChar? 'N' = none) ∧
      ¬ Body.Allowed 'i' ∧ Sign.ofChar? 'i' = none := by
    unfold Body.Allowed
    decide
  rw [chars, ofCoefficient]
  by_cases nan : IsNaN term.coefficient
  · rw [if_pos nan]
    exact ⟨'N', List.mem_append_left _ List.mem_cons_self, letters.1⟩
  · rw [if_neg nan, if_neg notFinite]
    refine ⟨'i', List.mem_append_left _ ?_, letters.2⟩
    split
    · exact List.mem_cons_of_mem _ List.mem_cons_self
    · exact List.mem_cons_self

end Term

namespace Polynomial

/-! ## All terms -/

theorem flatMap_laterChars {terms : List Term}
    (finite : ∀ term ∈ terms, IsFinite term.coefficient)
    (kept : ∀ term ∈ terms, ¬ term.Negligible) :
    terms.flatMap Term.laterChars = Segmentation.join (terms.map Term.signedBody) := by
  induction terms with
  | nil => rfl
  | cons term terms inductionHypothesis =>
      obtain ⟨finiteFirst, finiteRest⟩ := List.forall_mem_cons.mp finite
      obtain ⟨keptFirst, keptRest⟩ := List.forall_mem_cons.mp kept
      rw [List.flatMap_cons, Term.laterChars_of_finite finiteFirst keptFirst,
        inductionHypothesis finiteRest keptRest]
      rfl

theorem plain_unsignedChars (term : Term) :
    ∀ c ∈ term.unsignedChars, Sign.ofChar? c = none :=
  fun c member => Sign.ofChar?_of_allowed (term.allowed_unsignedChars c member)

theorem cut_join_map_signedBody (terms : List Term) :
    Segmentation.cut (Segmentation.join (terms.map Term.signedBody)) =
      ([], terms.map Term.signedBody) := by
  apply Segmentation.cut_join_of_plain
  intro part member
  obtain ⟨term, _, rfl⟩ := List.mem_map.mp member
  exact plain_unsignedChars term

/-- The cuts give back one signed body for each term. -/
theorem signedBodies_chars {p : Polynomial} (kept : ∀ term ∈ p.terms, ¬ term.Negligible)
    (finite : ∀ term ∈ p.terms, IsFinite term.coefficient) :
    Segmentation.signedBodies p.chars = p.terms.map Term.signedBody := by
  obtain ⟨terms⟩ := p
  cases terms with
  | nil => rfl
  | cons first later =>
      obtain ⟨finiteFirst, finiteLater⟩ := List.forall_mem_cons.mp finite
      obtain ⟨_, keptLater⟩ := List.forall_mem_cons.mp kept
      show Segmentation.signedBodies (first.chars ++ later.flatMap Term.laterChars) = _
      have front := Segmentation.cut_append (plain_unsignedChars first)
        (Segmentation.join (later.map Term.signedBody))
      rw [cut_join_map_signedBody, List.append_nil] at front
      rw [flatMap_laterChars finiteLater keptLater, Term.chars_of_finite finiteFirst,
        Segmentation.signedBodies, List.map_cons, Term.signedBody, Term.writtenSign]
      by_cases negative : IsNegative first.coefficient
      · rw [if_pos negative, if_pos negative]
        have minus := Segmentation.cut_sign .minus
          (first.unsignedChars ++ Segmentation.join (later.map Term.signedBody))
        have text : '-' :: first.unsignedChars ++
            Segmentation.join (later.map Term.signedBody) = Sign.minus.char ::
              (first.unsignedChars ++ Segmentation.join (later.map Term.signedBody)) := rfl
        rw [text, minus, front, if_pos rfl]
      · rw [if_neg negative, if_neg negative, front, if_neg first.unsignedChars_ne_nil]

theorem mem_chars_of_mem {p : Polynomial} {term : Term} (member : term ∈ p.terms) {c : Char}
    (written : c ∈ term.chars) : c ∈ p.chars := by
  obtain ⟨terms⟩ := p
  cases terms with
  | nil => cases member
  | cons first later =>
      show c ∈ first.chars ++ later.flatMap Term.laterChars
      rcases List.mem_cons.mp member with rfl | inLater
      · exact List.mem_append_left _ written
      · refine List.mem_append_right _ (List.mem_flatMap.mpr ⟨term, inLater, ?_⟩)
        rw [Term.laterChars]
        split
        · exact List.mem_cons_of_mem _ written
        · exact written

/-- Only finite coefficients can be read at all. -/
theorem finite_of_readTerms {p : Polynomial} {terms : List Term}
    (computed : readTerms p.chars = .ok terms) :
    ∀ term ∈ p.terms, IsFinite term.coefficient := by
  intro term member
  by_contra notFinite
  obtain ⟨c, written, notAllowed, notSign⟩ := Term.exists_not_allowed notFinite
  rcases allowed_of_readTerms computed (mem_chars_of_mem member written) with allowed | isSign
  · exact notAllowed allowed
  · exact isSign notSign

theorem map_readSigned_eq {terms results : List Term}
    (finite : ∀ term ∈ terms, IsFinite term.coefficient) :
    (terms.map Term.signedBody).map readSigned = results.map some ↔
      (∀ term ∈ terms, term.Writable) ∧ results = terms := by
  induction terms generalizing results with
  | nil =>
      rw [List.map_nil, List.map_nil, eq_comm, List.map_eq_nil_iff]
      exact (and_iff_right nofun).symm
  | cons term terms inductionHypothesis =>
      obtain ⟨finiteFirst, finiteRest⟩ := List.forall_mem_cons.mp finite
      rw [List.map_cons, List.map_cons, Term.readSigned_signedBody finiteFirst,
        List.forall_mem_cons]
      by_cases small : term.exponent.toNat ≤ largestExponent
      · rw [if_pos small]
        constructor
        · intro same
          cases results with
          | nil => cases same
          | cons result results =>
              obtain ⟨head, tail⟩ := List.cons.inj same
              obtain ⟨writable, rfl⟩ := (inductionHypothesis finiteRest).mp tail
              rw [Option.some.inj head]
              exact ⟨⟨(Option.some.inj head) ▸ ⟨finiteFirst, small⟩, writable⟩, rfl⟩
        · intro given
          rcases given with ⟨⟨_, writable⟩, rfl⟩
          rw [(inductionHypothesis finiteRest).mpr ⟨writable, rfl⟩]
          rfl
      · rw [if_neg small]
        constructor
        · intro same
          cases results with
          | nil => cases same
          | cons result results => cases (List.cons.inj same).1
        · intro given
          rcases given with ⟨⟨writable, _⟩, _⟩
          exact absurd writable.2 small

/-- What is read from a text are the terms that it was written for, in any order of exponents. -/
theorem readTerms_chars_of_kept {p : Polynomial} (kept : ∀ term ∈ p.terms, ¬ term.Negligible)
    (terms : List Term) : readTerms p.chars = .ok terms ↔ p.Writable ∧ terms = p.terms := by
  constructor
  · intro computed
    have finite := finite_of_readTerms computed
    have read := ((readTerms_eq_ok p.chars terms).mp computed).2
    rw [signedBodies_chars kept finite] at read
    exact (map_readSigned_eq finite).mp read
  · intro given
    rcases given with ⟨writable, rfl⟩
    have finite : ∀ term ∈ p.terms, IsFinite term.coefficient :=
      fun term member => (writable term member).1
    rw [readTerms_eq_ok, signedBodies_chars kept finite]
    refine ⟨?_, (map_readSigned_eq finite).mpr ⟨writable, rfl⟩⟩
    intro part member
    obtain ⟨term, _, rfl⟩ := List.mem_map.mp member
    exact term.unsignedChars_ne_nil

theorem readTerms_chars {p : Polynomial} (canonical : p.Canonical) (terms : List Term) :
    readTerms p.chars = .ok terms ↔ p.Writable ∧ terms = p.terms :=
  readTerms_chars_of_kept canonical.2 terms

/-- The text of a canonical polynomial reads back, term by term and to the bit, exactly if every
coefficient is finite and every exponent is in the range of texts. Any other text is refused, so no
text is read as a different polynomial. -/
theorem parse_text {p : Polynomial} (canonical : p.Canonical) :
    (parse p.text = .ok p ↔ p.Writable) ∧
      (¬ p.Writable → ∃ error, parse p.text = .error error) ∧
        ∀ q, parse p.text = .ok q → q = p := by
  have same (terms : List Term) (read : readTerms p.chars = .ok terms) : ofTerms terms = p := by
    obtain ⟨_, rfl⟩ := (readTerms_chars canonical terms).mp read
    exact congrArg Polynomial.mk (Term.normalize_of_canonical canonical)
  have chars : p.text.toList = p.chars := String.toList_ofList
  have only (q : Polynomial) (computed : parse p.text = .ok q) : p.Writable ∧ q = p := by
    rw [parse, chars] at computed
    obtain ⟨terms, read, rfl⟩ := Traversal.map_eq_ok.mp computed
    exact ⟨((readTerms_chars canonical terms).mp read).1, same terms read⟩
  refine ⟨⟨fun computed => (only p computed).1, ?_⟩, ?_, fun q computed => (only q computed).2⟩
  · intro writable
    have read := (readTerms_chars canonical p.terms).mpr ⟨writable, rfl⟩
    rw [parse, chars]
    exact Traversal.map_eq_ok.mpr ⟨p.terms, read, same p.terms read⟩
  · intro notWritable
    cases computed : parse p.text with
    | error error => exact ⟨error, rfl⟩
    | ok q => exact absurd (only q computed).1 notWritable

/-- `-1.5 + 2x^3`, whose second term brings a sign and whose first term brings its own. -/
def signed : Polynomial := ⟨[⟨-1.5, 0⟩, ⟨2.0, 3⟩]⟩

theorem parse_text_signed :
    signed.Canonical ∧ signed.Writable ∧ parse signed.text = .ok signed := by
  have canonical : signed.Canonical := by decide +kernel
  have writable : signed.Writable := by decide +kernel
  exact ⟨canonical, writable, (parse_text canonical).1.mpr writable⟩

end Polynomial

end SparsePolynomial
