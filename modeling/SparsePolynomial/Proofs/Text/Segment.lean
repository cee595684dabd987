import SparsePolynomial.Proofs.Text.Body
import SparsePolynomial.Proofs.Traversal
import SparsePolynomial.Text.Reader

/-!
Contract: the terms of a text, whatever the offsets of its segments.

Owns:
- the cut of a text that is put together from signs and bodies without signs;
- `signedBodies`, the sign and the body of each segment, and `readTerms_eq_ok`: a text is read when
  each of them is read on its own;
- the characters of a text that can be read.
-/

set_option autoImplicit false

namespace SparsePolynomial.Text

theorem Sign.ofChar?_of_allowed {c : Char} (allowed : Body.Allowed c) : ofChar? c = none := by
  have notPlus : c ≠ '+' := by
    rintro rfl
    exact absurd allowed (by unfold Body.Allowed; decide)
  have notMinus : c ≠ '-' := by
    rintro rfl
    exact absurd allowed (by unfold Body.Allowed; decide)
  rw [ofChar?, if_neg notPlus, if_neg notMinus]

namespace Segmentation

/-! ## Cuts -/

theorem cut_append {body : List Char} (plain : ∀ c ∈ body, Sign.ofChar? c = none)
    (rest : List Char) : cut (body ++ rest) = (body ++ (cut rest).1, (cut rest).2) := by
  induction body with
  | nil => rfl
  | cons c body inductionHypothesis =>
      rcases List.forall_mem_cons.mp plain with ⟨plainFirst, plainRest⟩
      rw [List.cons_append, cut, plainFirst, inductionHypothesis plainRest]
      rfl

theorem cut_sign (sign : Sign) (rest : List Char) :
    cut (sign.char :: rest) = ([], (sign, (cut rest).1) :: (cut rest).2) := by
  rw [cut, Sign.ofChar?_char]

/-- The text of signed bodies. -/
def join (parts : List (Sign × List Char)) : List Char :=
  parts.flatMap fun part => part.1.char :: part.2

theorem cut_join_of_plain {parts : List (Sign × List Char)}
    (plain : ∀ part ∈ parts, ∀ c ∈ part.2, Sign.ofChar? c = none) :
    cut (join parts) = ([], parts) := by
  induction parts with
  | nil => rfl
  | cons part parts inductionHypothesis =>
      rcases List.forall_mem_cons.mp plain with ⟨plainFirst, plainRest⟩
      rw [join, List.flatMap_cons, List.cons_append, cut_sign, cut_append plainFirst, ← join,
        inductionHypothesis plainRest, List.append_nil]

/-! ## Segments -/

/-- The sign and the body of a segment. -/
def signedBody (segment : Segment) : Sign × List Char := (segment.sign, segment.body)

theorem segments_ofSigned (offset : Nat) (parts : List (Sign × List Char)) :
    (ofSigned offset parts).failure? = none ↔ ∀ part ∈ parts, part.2 ≠ [] := by
  induction parts generalizing offset with
  | nil => exact iff_of_true rfl nofun
  | cons part parts inductionHypothesis =>
      rcases part with ⟨sign, body⟩
      rw [List.forall_mem_cons]
      cases body with
      | nil => exact iff_of_false nofun fun bodies => bodies.1 rfl
      | cons c body =>
          rw [ofSigned]
          exact (inductionHypothesis _).trans (and_iff_right (List.cons_ne_nil c body)).symm

theorem map_signedBody_ofSigned (offset : Nat) {parts : List (Sign × List Char)}
    (bodies : ∀ part ∈ parts, part.2 ≠ []) :
    (ofSigned offset parts).segments.map signedBody = parts := by
  induction parts generalizing offset with
  | nil => rfl
  | cons part parts inductionHypothesis =>
      rcases part with ⟨sign, body⟩
      rcases List.forall_mem_cons.mp bodies with ⟨bodyFirst, bodyRest⟩
      cases body with
      | nil => exact absurd rfl bodyFirst
      | cons c body =>
          rw [ofSigned, List.map_cons, inductionHypothesis _ bodyRest]
          rfl

/-- The sign and the body of each part of a text; only the first may go without a sign. -/
def signedBodies (text : List Char) : List (Sign × List Char) :=
  if (cut text).1 = [] then (cut text).2 else (.plus, (cut text).1) :: (cut text).2

theorem failure?_ofChars (text : List Char) :
    (ofChars text).failure? = none ↔ ∀ part ∈ signedBodies text, part.2 ≠ [] := by
  rw [ofChars, signedBodies]
  by_cases unsigned : (cut text).1 = []
  · rw [if_pos unsigned, if_pos unsigned]
    exact segments_ofSigned 0 _
  · rw [if_neg unsigned, if_neg unsigned, List.forall_mem_cons]
    exact (segments_ofSigned _ _).trans (and_iff_right unsigned).symm

theorem map_signedBody_ofChars {text : List Char}
    (bodies : ∀ part ∈ signedBodies text, part.2 ≠ []) :
    (ofChars text).segments.map signedBody = signedBodies text := by
  rw [signedBodies] at bodies ⊢
  rw [ofChars]
  by_cases unsigned : (cut text).1 = []
  · rw [if_pos unsigned] at bodies ⊢
    rw [if_pos unsigned]
    exact map_signedBody_ofSigned 0 bodies
  · rw [if_neg unsigned] at bodies ⊢
    rw [if_neg unsigned, List.map_cons,
      map_signedBody_ofSigned _ (List.forall_mem_cons.mp bodies).2]
    rfl

end Segmentation

/-! ## Reading -/

open Segmentation (signedBody signedBodies cut)

/-- The term of a sign and a body. -/
def readSigned (part : Sign × List Char) : Option Term :=
  match (Body.ofChars part.2).read with
  | .error _ => none
  | .ok term => some ⟨part.1.apply term.coefficient, term.exponent⟩

theorem Segment.read_eq_ok (segment : Segment) (term : Term) :
    segment.read = .ok term ↔ readSigned (signedBody segment) = some term := by
  rw [Segment.read, readSigned]
  show _ ↔ (match (Body.ofChars segment.body).read with
    | .error _ => none
    | .ok term => some _) = _
  cases (Body.ofChars segment.body).read with
  | error part => exact iff_of_false nofun nofun
  | ok read => exact ⟨fun same => congrArg some (Except.ok.inj same),
      fun same => congrArg Except.ok (Option.some.inj same)⟩

/-- A text is read when every part has a body and each is read on its own. -/
theorem readTerms_eq_ok (text : List Char) (terms : List Term) :
    readTerms text = .ok terms ↔
      (∀ part ∈ signedBodies text, part.2 ≠ []) ∧
        (signedBodies text).map readSigned = terms.map some := by
  rw [readTerms, Segmentation.read, Traversal.bind_eq_ok, ← Segmentation.failure?_ofChars]
  constructor
  · intro given
    rcases given with ⟨found, computed, same⟩
    cases failure : (Segmentation.ofChars text).failure? with
    | some error =>
        rw [failure] at same
        cases same
    | none =>
        rw [failure] at same
        cases same
        refine ⟨rfl, ?_⟩
        rw [← Segmentation.map_signedBody_ofChars ((Segmentation.failure?_ofChars text).mp failure),
          List.map_map]
        exact (Traversal.mapM_eq_ok_iff_map Segment.read_eq_ok _ _).mp computed
  · intro given
    rcases given with ⟨failure, read⟩
    rw [← Segmentation.map_signedBody_ofChars ((Segmentation.failure?_ofChars text).mp failure),
      List.map_map] at read
    refine ⟨terms, (Traversal.mapM_eq_ok_iff_map Segment.read_eq_ok _ _).mpr read, ?_⟩
    rw [failure]
    rfl

/-! ## Characters -/

/-- A text that is read has a term for each segment. -/
theorem length_segments_of_readTerms {text : List Char} {terms : List Term}
    (computed : readTerms text = .ok terms) :
    (Segmentation.ofChars text).segments.length = terms.length := by
  obtain ⟨bodies, read⟩ := (readTerms_eq_ok text terms).mp computed
  calc (Segmentation.ofChars text).segments.length
      = (signedBodies text).length := by
        rw [← Segmentation.map_signedBody_ofChars bodies, List.length_map]
    _ = ((signedBodies text).map readSigned).length := (List.length_map _).symm
    _ = terms.length := by rw [read, List.length_map]

theorem allowed_of_readSigned {part : Sign × List Char} {term : Term}
    (computed : readSigned part = some term) : ∀ c ∈ part.2, Body.Allowed c := by
  rw [readSigned] at computed
  cases read : (Body.ofChars part.2).read with
  | error fault =>
      rw [read] at computed
      cases computed
  | ok own => exact Body.allowed_of_leftover (Body.leftover_of_read read)

/-- Whatever can be read is written with signs and the characters of terms alone. -/
theorem allowed_of_readTerms {text : List Char} {terms : List Term}
    (computed : readTerms text = .ok terms) {c : Char} (member : c ∈ text) :
    Body.Allowed c ∨ Sign.ofChar? c ≠ none := by
  rcases (readTerms_eq_ok text terms).mp computed with ⟨_, read⟩
  have readable : ∀ part ∈ signedBodies text, ∀ c ∈ part.2, Body.Allowed c := by
    intro part found
    have mapped := List.mem_map_of_mem (f := readSigned) found
    rw [read] at mapped
    rcases List.mem_map.mp mapped with ⟨term, _, same⟩
    exact allowed_of_readSigned same.symm
  rw [← Segmentation.cut_join text] at member
  rcases List.mem_append.mp member with unsigned | signed
  · have front : (Sign.plus, (cut text).1) ∈ signedBodies text := by
      rw [signedBodies, if_neg (List.ne_nil_of_mem unsigned)]
      exact List.mem_cons_self
    exact .inl (readable _ front c unsigned)
  · rcases List.mem_flatMap.mp signed with ⟨part, found, written⟩
    rcases List.mem_cons.mp written with rfl | inBody
    · right
      rw [Sign.ofChar?_char]
      exact Option.some_ne_none _
    · have listed : part ∈ signedBodies text := by
        rw [signedBodies]
        split
        · exact found
        · exact List.mem_cons_of_mem _ found
      exact .inl (readable part listed c inBody)

end SparsePolynomial.Text
