import SparsePolynomial.Proofs.Binary64.Exact
import SparsePolynomial.Proofs.Polynomial.Strategies
import SparsePolynomial.Proofs.Text.Grammar
import SparsePolynomial.Proofs.Text.RoundTrip

/-!
Contract: which polynomials that were accepted as input can be printed and read back.

Owns:
- that texts and arrays are accepted term by term: every coefficient is finite and every exponent in
  the range of texts;
- `SumsFinite`, which neither of them looks at: the coefficients of one exponent add up to a finite
  number;
- `accepted_reads_back_iff`: with it the polynomial of an accepted input reads back from its text,
  without it there is an infinite coefficient and the text is refused.
-/

set_option autoImplicit false

namespace SparsePolynomial

open Binary64 (IsFinite isFinite_of_negligible)
open Text

namespace Polynomial

/-! ## Sums of one exponent -/

/-- For every exponent that occurs, the sum of its coefficients from left to right is finite. -/
def SumsFinite (terms : List Term) : Prop :=
  ∀ exponent, ∀ total ∈ Coefficient.total? (Term.coefficients terms exponent), IsFinite total

/-- A sum that counts as zero is finite, and all others are coefficients. -/
theorem finite_ofTerms_iff (terms : List Term) : (ofTerms terms).Finite ↔ SumsFinite terms := by
  constructor
  · intro finite exponent total isTotal
    by_cases negligible : Coefficient.Negligible total
    · exact isFinite_of_negligible negligible
    · have kept := Term.coefficient?_normalize terms exponent
      rw [Option.mem_def.mp isTotal, Option.bind_some,
        Coefficient.keep_of_not_negligible negligible] at kept
      exact finite _ (Term.mem_of_coefficient? kept)
  · intro finite term member
    have found := Term.coefficient?_of_mem (Term.canonical_normalize terms).1 member
    rw [Term.coefficient?_normalize, Option.bind_eq_some_iff] at found
    obtain ⟨total, isTotal, kept⟩ := found
    have same : total = term.coefficient := by
      rw [Coefficient.keep] at kept
      split at kept
      · cases kept
      · exact Option.some.inj kept
    exact same ▸ finite term.exponent total isTotal

/-- No exponent is new in a normal form. -/
theorem exists_exponent_of_mem_ofTerms {terms : List Term} {term : Term}
    (member : term ∈ (ofTerms terms).terms) :
    ∃ own ∈ terms, own.exponent = term.exponent := by
  by_contra missing
  have different : ∀ own ∈ terms, own.exponent ≠ term.exponent :=
    fun own inTerms same => missing ⟨own, inTerms, same⟩
  have found := Term.coefficient?_of_mem (Term.canonical_normalize terms).1 member
  rw [Term.coefficient?_normalize, Term.coefficients_eq_nil different] at found
  cases found

theorem parse_text_eq_ok_iff {p : Polynomial} (canonical : p.Canonical) :
    parse p.text = .ok p ↔ p.Writable := by
  rw [parse, text, String.toList_ofList, Traversal.map_eq_ok]
  simp only [readTerms_chars canonical]
  constructor
  · rintro ⟨terms, ⟨writable, _⟩, _⟩
    exact writable
  · intro writable
    exact ⟨p.terms, ⟨writable, rfl⟩, ofTerms_of_canonical canonical⟩

/-! ## Accepted terms -/

/-- Each term on its own could be written in a text. -/
def Accepted (terms : List Term) : Prop := ∀ term ∈ terms, term.Writable

theorem writable_of_unsignedTerm {body : List Char} {term : Term}
    (unsigned : Grammar.UnsignedTerm body term) : term.Writable := by
  have finite {text : List Char} {c : Float} (magnitude : Grammar.Magnitude text c) :
      IsFinite c := by
    cases magnitude with
    | numeral _ _ rounded =>
        obtain ⟨r, _, finite, rfl⟩ := rounded
        rw [Binary64.ofRank_eq_ofParts (Nat.le_of_lt finite)]
        exact Binary64.isFinite_ofParts .positive finite
  have inRange {digits : List Char} {exponent : UInt64} (power : Grammar.Power digits exponent) :
      exponent.toNat ≤ largestExponent := by
    cases power with
    | first => decide
    | digits _ _ atMost => exact (Nat.mod_le _ _).trans atMost
  have one : IsFinite 1.0 := by decide +kernel
  cases unsigned with
  | constant magnitude => exact ⟨finite magnitude, Nat.zero_le _⟩
  | multiple magnitude power => exact ⟨finite magnitude, inRange power⟩
  | monic power => exact ⟨one, inRange power⟩

theorem writable_withSign {sign : Sign} {term : Term} (writable : term.Writable) :
    (Grammar.withSign sign term).Writable := by
  refine ⟨?_, writable.2⟩
  cases sign with
  | plus => exact writable.1
  | minus => exact Binary64.isFinite_neg.mpr writable.1

theorem accepted_of_signedTerms {text : List Char} {terms : List Term}
    (all : Grammar.SignedTerms text terms) : Accepted terms := by
  induction all with
  | nil => exact nofun
  | cons first _ inductionHypothesis =>
      exact List.forall_mem_cons.mpr
        ⟨writable_withSign (writable_of_unsignedTerm first), inductionHypothesis⟩

/-- The terms of a text are accepted one by one. -/
theorem accepted_of_readTerms {text : List Char} {terms : List Term}
    (read : readTerms text = .ok terms) : Accepted terms := by
  cases readTerms_eq_ok_iff.mp read with
  | signed all => exact accepted_of_signedTerms all
  | unsigned first later =>
      exact List.forall_mem_cons.mpr
        ⟨writable_of_unsignedTerm first, accepted_of_signedTerms later⟩

/-- The terms of arrays are accepted one by one. -/
theorem accepted_of_termsOfArrays {coefficients : List Float} {exponents : List UInt32}
    {terms : List Term} (listed : termsOfArrays coefficients exponents = .ok terms) :
    Accepted terms := by
  rw [termsOfArrays] at listed
  split at listed
  · cases listed
  · split at listed
    · cases listed
    · rename_i _ noneInfinite
      obtain rfl := Except.ok.inj listed
      have finite : ∀ c ∈ coefficients, IsFinite c := by
        simpa using List.findIdx?_eq_none_iff.mp noneInfinite
      intro term member
      rw [← List.map_uncurry_zip_eq_zipWith] at member
      obtain ⟨⟨c, exponent⟩, inZip, rfl⟩ := List.mem_map.mp member
      refine ⟨finite c (List.of_mem_zip inZip).1, ?_⟩
      exact Nat.le_of_lt_succ exponent.toNat_lt

/-- Accepted terms of different exponents are not added up at all. -/
theorem sumsFinite_of_nodup {terms : List Term} (accepted : Accepted terms)
    (different : (terms.map Term.exponent).Nodup) : SumsFinite terms := by
  intro exponent total isTotal
  induction terms with
  | nil => cases isTotal
  | cons first rest inductionHypothesis =>
      obtain ⟨isNew, differentRest⟩ := List.nodup_cons.mp different
      obtain ⟨writable, acceptedRest⟩ := List.forall_mem_cons.mp accepted
      rw [Term.coefficients_cons] at isTotal
      by_cases same : first.exponent = exponent
      · have alone : Term.coefficients rest exponent = [] :=
          Term.coefficients_eq_nil fun other member again =>
            isNew (same ▸ again ▸ List.mem_map_of_mem member)
        rw [if_pos same, alone] at isTotal
        obtain rfl := Option.mem_some_iff.mp isTotal
        exact writable.1
      · rw [if_neg same] at isTotal
        exact inductionHypothesis acceptedRest differentRest isTotal

/-! ## Reading back -/

/-- Accepted terms give a polynomial that reads back exactly if it is finite. -/
theorem reads_back_of_accepted {terms : List Term} (accepted : Accepted terms) :
    ((ofTerms terms).Finite ↔ SumsFinite terms) ∧
      (parse (ofTerms terms).text = .ok (ofTerms terms) ↔ SumsFinite terms) := by
  refine ⟨finite_ofTerms_iff terms, ?_⟩
  rw [parse_text_eq_ok_iff (canonical_ofTerms terms), ← finite_ofTerms_iff]
  constructor
  · exact fun writable term member => (writable term member).1
  · intro finite term member
    obtain ⟨own, inTerms, same⟩ := exists_exponent_of_mem_ofTerms member
    exact ⟨finite term member, same ▸ (accepted own inTerms).2⟩

/-- Nothing that is accepted without repeated exponents can overflow. -/
theorem parse_text_ofTerms_of_nodup {terms : List Term} (accepted : Accepted terms)
    (different : (terms.map Term.exponent).Nodup) :
    parse (ofTerms terms).text = .ok (ofTerms terms) :=
  (reads_back_of_accepted accepted).2.mpr (sumsFinite_of_nodup accepted different)

/-- The polynomial of an accepted input is finite, and is read back from its text, exactly if the
coefficients of each exponent have a finite sum. -/
theorem accepted_reads_back_iff (text : String) (coefficients : List Float)
    (exponents : List UInt32) (p : Polynomial) :
    (parse text = .ok p →
      ∃ terms, readTerms text.toList = .ok terms ∧
        (p.Finite ↔ SumsFinite terms) ∧ (parse p.text = .ok p ↔ SumsFinite terms)) ∧
    (ofArrays coefficients exponents = .ok p →
      ∃ terms, termsOfArrays coefficients exponents = .ok terms ∧
        (p.Finite ↔ SumsFinite terms) ∧ (parse p.text = .ok p ↔ SumsFinite terms)) := by
  constructor
  · intro parsed
    obtain ⟨terms, read, rfl⟩ := Traversal.map_eq_ok.mp parsed
    exact ⟨terms, read, reads_back_of_accepted (accepted_of_readTerms read)⟩
  · intro built
    obtain ⟨terms, listed, rfl⟩ := Traversal.map_eq_ok.mp built
    exact ⟨terms, listed, reads_back_of_accepted (accepted_of_termsOfArrays listed)⟩

/-- `x + x`, from a text and from arrays. -/
theorem accepted_reads_back_iff_sum :
    (parse "x+x" = .ok (ofTerms [⟨1.0, 1⟩, ⟨1.0, 1⟩]) ∧
      ∃ terms, readTerms "x+x".toList = .ok terms ∧
        ((ofTerms [⟨1.0, 1⟩, ⟨1.0, 1⟩]).Finite ↔ SumsFinite terms) ∧
        (parse (ofTerms [⟨1.0, 1⟩, ⟨1.0, 1⟩]).text = .ok (ofTerms [⟨1.0, 1⟩, ⟨1.0, 1⟩]) ↔
          SumsFinite terms)) ∧
    ofArrays [1.0, 1.0] [1, 1] = .ok (ofTerms [⟨1.0, 1⟩, ⟨1.0, 1⟩]) ∧
      ∃ terms, termsOfArrays [1.0, 1.0] [1, 1] = .ok terms ∧
        ((ofTerms [⟨1.0, 1⟩, ⟨1.0, 1⟩]).Finite ↔ SumsFinite terms) ∧
        (parse (ofTerms [⟨1.0, 1⟩, ⟨1.0, 1⟩]).text = .ok (ofTerms [⟨1.0, 1⟩, ⟨1.0, 1⟩]) ↔
          SumsFinite terms) := by
  have parsed : parse "x+x" = .ok (ofTerms [⟨1.0, 1⟩, ⟨1.0, 1⟩]) := rfl
  have built : ofArrays [1.0, 1.0] [1, 1] = .ok (ofTerms [⟨1.0, 1⟩, ⟨1.0, 1⟩]) := by
    have listed : termsOfArrays [1.0, 1.0] [1, 1] = .ok [⟨1.0, 1⟩, ⟨1.0, 1⟩] := by decide +kernel
    rw [ofArrays, listed]
    rfl
  have readsBack := accepted_reads_back_iff "x+x" [1.0, 1.0] [1, 1] (ofTerms [⟨1.0, 1⟩, ⟨1.0, 1⟩])
  exact ⟨⟨parsed, readsBack.1 parsed⟩, built, readsBack.2 built⟩

/-- A one with 308 zeros. -/
def tenTo308 : List Char := '1' :: List.replicate 308 '0'

/-- Two finite terms of one exponent whose sum is infinite. -/
def huge : List Term := [⟨1e308, 0⟩, ⟨1e308, 0⟩]

theorem not_sumsFinite_huge : ¬ SumsFinite huge := by
  intro finite
  have infinite : ¬ IsFinite (1e308 + 1e308) := by decide +kernel
  exact infinite (finite 0 _ rfl)

/-- Coefficients are looked at one by one, so the terms are accepted from a text and from arrays.
The text of their sum is refused. -/
theorem infinite_sum_accepted :
    parse (String.ofList (tenTo308 ++ '+' :: tenTo308)) = .ok (ofTerms huge) ∧
      ofArrays [1e308, 1e308] [0, 0] = .ok (ofTerms huge) ∧
      ¬ (ofTerms huge).Finite ∧ parse (ofTerms huge).text ≠ .ok (ofTerms huge) := by
  have read : readTerms (tenTo308 ++ '+' :: tenTo308) = .ok huge := by decide +kernel
  have listed : termsOfArrays [1e308, 1e308] [0, 0] = .ok huge := by decide +kernel
  have readsBack := reads_back_of_accepted (accepted_of_readTerms read)
  refine ⟨?_, ?_, mt readsBack.1.mp not_sumsFinite_huge, mt readsBack.2.mp not_sumsFinite_huge⟩
  · rw [parse, String.toList_ofList, read]
    rfl
  · rw [ofArrays, listed]
    rfl

end Polynomial

end SparsePolynomial
