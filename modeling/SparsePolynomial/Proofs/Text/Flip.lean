import SparsePolynomial.Polynomial.Arithmetic
import SparsePolynomial.Proofs.Term.Negation
import SparsePolynomial.Proofs.Text.Segment

/-!
Contract: texts in which every sign is exchanged.

Owns:
- `flipped`, the text with every `+` written as `-` and every `-` as `+`, and with a `-` in front if
  it begins without a sign;
- `signedBodies_flipSigns`: the cuts stay where they are, and each body gets the other sign;
- `parse_flipped`: such a text is read exactly if the text itself is, and then as the negation.

A flipped text is one byte longer if the text begins without a sign, so the offsets of its errors
differ. Nothing is said about them.
-/

set_option autoImplicit false

namespace SparsePolynomial.Text

/-! ## Signs -/

namespace Sign

/-- The other sign. -/
def flip : Sign → Sign
  | plus => minus
  | minus => plus

theorem apply_flip (sign : Sign) (magnitude : Float) :
    sign.flip.apply magnitude = -sign.apply magnitude := by
  cases sign with
  | plus => rfl
  | minus => exact (Binary64.neg_twice magnitude).symm

/-- The other sign if the character is one, and otherwise the character itself. -/
def flipChar (c : Char) : Char := if c = '+' then '-' else if c = '-' then '+' else c

theorem flipChar_of_plain {c : Char} (plain : ofChar? c = none) : flipChar c = c := by
  unfold ofChar? at plain
  grind [flipChar]

theorem ofChar?_flipChar (c : Char) : ofChar? (flipChar c) = (ofChar? c).map flip := by
  unfold ofChar? flipChar
  grind [flip]

end Sign

open Sign (flipChar)

/-- Every sign exchanged, and a `-` in front of a text that begins without a sign. -/
def flipSigns : List Char → List Char
  | [] => []
  | c :: rest =>
    if c = '+' ∨ c = '-' then (c :: rest).map flipChar else '-' :: (c :: rest).map flipChar

/-- The text in which every sign is exchanged. -/
def flipped (text : String) : String := String.ofList (flipSigns text.toList)

/-! ## Cuts -/

namespace Segmentation

/-- The same body behind the other sign. -/
def flipPart (part : Sign × List Char) : Sign × List Char := (part.1.flip, part.2)

/-- Signs stay signs and bodies have none, so a text is cut where it was. -/
theorem cut_map_flipChar (text : List Char) :
    cut (text.map flipChar) = ((cut text).1, (cut text).2.map flipPart) := by
  induction text with
  | nil => rfl
  | cons c rest inductionHypothesis =>
      rw [List.map_cons, cut, cut, inductionHypothesis, Sign.ofChar?_flipChar]
      cases isSign : Sign.ofChar? c with
      | none => rw [Option.map_none, Sign.flipChar_of_plain isSign]
      | some sign => rfl

/-- A flipped text begins with a sign unless it is empty. If the text itself does not, its first
body counts as positive, and the `-` in front of it is the other sign. -/
theorem cut_flipSigns (text : List Char) :
    cut (flipSigns text) = ([], (signedBodies text).map flipPart) := by
  cases text with
  | nil => rfl
  | cons c rest =>
      rw [flipSigns, signedBodies]
      cases written : Sign.ofChar? c with
      | some sign =>
          have isSign : c = '+' ∨ c = '-' := by
            unfold Sign.ofChar? at written
            grind
          have unsigned : (cut (c :: rest)).1 = [] := by rw [cut, written]
          rw [if_pos isSign, if_pos unsigned, cut_map_flipChar, unsigned]
      | none =>
          have notSign : ¬ (c = '+' ∨ c = '-') := by
            rintro (rfl | rfl) <;> cases written
          have nonempty : (cut (c :: rest)).1 ≠ [] := by
            rw [cut, written]
            exact List.cons_ne_nil c _
          have signed := cut_sign .minus ((c :: rest).map flipChar)
          rw [cut_map_flipChar] at signed
          rw [if_neg notSign, if_neg nonempty]
          exact signed

theorem signedBodies_flipSigns (text : List Char) :
    signedBodies (flipSigns text) = (signedBodies text).map flipPart := by
  rw [signedBodies, cut_flipSigns, if_pos rfl]

end Segmentation

/-! ## Reading -/

open Segmentation (flipPart signedBodies)

theorem readSigned_flipPart (part : Sign × List Char) :
    readSigned (flipPart part) = (readSigned part).map Term.neg := by
  simp only [readSigned, flipPart]
  cases (Body.ofChars part.2).read with
  | error fault => rfl
  | ok term => exact congrArg (fun c => some (Term.mk c term.exponent)) (part.1.apply_flip _)

/-- The terms of a flipped text are the negated terms of the text, in their order. -/
theorem readTerms_flipSigns (text : List Char) (terms : List Term) :
    readTerms (flipSigns text) = .ok (terms.map Term.neg) ↔ readTerms text = .ok terms := by
  have negations : ((signedBodies text).map flipPart).map readSigned =
      ((signedBodies text).map readSigned).map (Option.map Term.neg) := by
    simp only [List.map_map, Function.comp_def, readSigned_flipPart]
  have wanted : (terms.map Term.neg).map some = (terms.map some).map (Option.map Term.neg) := by
    simp only [List.map_map, Function.comp_def, Option.map_some]
  have injective : Function.Injective (List.map (Option.map Term.neg)) :=
    List.map_injective_iff.mpr
      (Option.map_injective (Function.Involutive.injective Term.neg_twice))
  rw [readTerms_eq_ok, readTerms_eq_ok, Segmentation.signedBodies_flipSigns, negations, wanted,
    injective.eq_iff, List.forall_mem_map]
  rfl

/-- Exchanging every sign of a text negates the polynomial that it stands for, and makes no text
readable or unreadable. -/
theorem parse_flipped (text : String) :
    ((∃ q, parse (flipped text) = .ok q) ↔ ∃ p, parse text = .ok p) ∧
      ∀ p, parse text = .ok p → parse (flipped text) = .ok p.neg := by
  have negates : ∀ p, parse text = .ok p → parse (flipped text) = .ok p.neg := by
    intro p parsed
    obtain ⟨terms, read, rfl⟩ := Traversal.map_eq_ok.mp parsed
    rw [parse, flipped, String.toList_ofList, (readTerms_flipSigns _ terms).mpr read]
    exact congrArg (fun terms => Except.ok (Polynomial.mk terms)) (Term.normalize_map_neg terms)
  refine ⟨⟨?_, fun ⟨p, parsed⟩ => ⟨p.neg, negates p parsed⟩⟩, negates⟩
  rintro ⟨q, parsed⟩
  rw [parse, flipped, String.toList_ofList] at parsed
  obtain ⟨terms, read, _⟩ := Traversal.map_eq_ok.mp parsed
  have twice : (terms.map Term.neg).map Term.neg = terms := by
    simp [Function.comp_def, Term.neg_twice]
  have original := (readTerms_flipSigns text.toList (terms.map Term.neg)).mp (by rwa [twice])
  exact ⟨.ofTerms (terms.map Term.neg), by rw [parse, original]; rfl⟩

/-- The constants cancel and those of the square do not. -/
def partlyCancelling : List Term := [⟨0.5, 0⟩, ⟨-0.5, 0⟩, ⟨3.0, 2⟩, ⟨-2.0, 2⟩]

theorem parse_flipped_partlyCancelling :
    flipped "0.5-0.5+3x2-2x2" = "-0.5+0.5-3x2+2x2" ∧
      parse "0.5-0.5+3x2-2x2" = .ok (.ofTerms partlyCancelling) ∧
      parse (flipped "0.5-0.5+3x2-2x2") = .ok (Polynomial.ofTerms partlyCancelling).neg := by
  have read : readTerms "0.5-0.5+3x2-2x2".toList = .ok partlyCancelling := by decide +kernel
  have parsed : parse "0.5-0.5+3x2-2x2" = .ok (.ofTerms partlyCancelling) := by
    rw [parse, read]
    rfl
  exact ⟨by decide, parsed, (parse_flipped "0.5-0.5+3x2-2x2").2 _ parsed⟩

end SparsePolynomial.Text
