import SparsePolynomial.Proofs.Text.Grammar

/-!
Contract: which error a text outside the grammar is refused with.

Owns:
- `ExponentFault`, the bodies whose exponent is at fault; in all others that cannot be read it is
  the coefficient;
- `Malformed`, what the text from an offset on has to start with for a fault to be reported there;
- `readTerms_eq_error_iff`: an error is reported exactly where everything in front of it can be
  read and the text goes on with its fault.

Does not own: what follows for a reported error, among it that the text behind the term at fault has
no part in it (`Proofs.Text.Pinpoint`).
-/

set_option autoImplicit false

namespace SparsePolynomial.Text

open Grammar

/-! ## Faults -/

/-- Nothing, or a text that starts with a sign: what can stand behind a term. -/
def StartsTerm (text : List Char) : Prop := ∀ c ∈ text.head?, Sign.ofChar? c ≠ none

/-- A sign that need not be there, as it is written. -/
def signChars (sign? : Option Sign) : List Char := (sign?.map Sign.char).toList

/-- A body with a variable, where something is left over behind the exponent, or where everything
else is as it should be and the exponent is too large. -/
inductive ExponentFault : List Char → Prop where
  | leftover {text whole fraction digits leftover : List Char}
      (numeral : Numeral text whole fraction) (isDigits : Digits digits)
      (nonempty : leftover ≠ []) (ends : Body.EndsDigits leftover) :
      ExponentFault (text ++ 'x' :: (digits ++ leftover))
  | tooLarge {text digits : List Char} (coefficient : text = [] ∨ ∃ c, Magnitude text c)
      (isDigits : Digits digits) (tooLarge : largestExponent < Nat.ofDigitChars 10 digits 0) :
      ExponentFault (text ++ 'x' :: digits)

/-- The text starts with a term that has the fault. -/
inductive Malformed : List Char → Fault → Prop where
  | emptyTerm (sign : Sign) : Malformed [sign.char] .emptyTerm
  | doubledSign (sign next : Sign) (rest : List Char) :
      Malformed (sign.char :: next.char :: rest) (.invalid .coefficient [sign.char, next.char])
  | term {sign? : Option Sign} {body rest : List Char} {part : Part}
      (plain : ∀ c ∈ body, Sign.ofChar? c = none) (nonempty : body ≠ [])
      (ends : StartsTerm rest) (unreadable : ¬ ∃ term, UnsignedTerm body term)
      (part_iff : part = .exponent ↔ ExponentFault body) :
      Malformed (signChars sign? ++ body ++ rest) (.invalid part (signChars sign? ++ body))

/-! ## Byte lengths -/

theorem byteLength_append (left right : List Char) :
    byteLength (left ++ right) = byteLength left + byteLength right := by
  induction left with
  | nil => exact (Nat.zero_add _).symm
  | cons c left inductionHypothesis =>
      rw [List.cons_append, byteLength, byteLength, inductionHypothesis, Nat.add_assoc]

namespace Body

/-! ## The part at fault -/

theorem power?_eq_none {body : Body} {digits : List Char} (found : body.exponent? = some digits) :
    body.power? = none ↔ largestExponent < Nat.ofDigitChars 10 digits 0 := by
  rw [power?, found]
  cases digits with
  | nil => exact iff_of_false (Option.some_ne_none 1) (by decide)
  | cons c rest => simp

theorem read_eq_error_exponent {body : Body} :
    body.read = .error .exponent ↔
      ∃ digits, body.exponent? = some digits ∧
        (body.leftover ≠ [] ∨
          body.leftover = [] ∧ body.magnitude? ≠ none ∧ body.power? = none) := by
  rw [read]
  by_cases nothingLeft : body.leftover = []
  · rw [if_neg (not_not_intro nothingLeft)]
    cases found : body.exponent? with
    | none =>
        rw [power?_of_none found]
        cases body.magnitude? <;> simp
    | some digits =>
        cases body.magnitude? <;> cases body.power? <;> simp [nothingLeft]
  · cases body.exponent? <;> simp [nothingLeft]

theorem exponentFault_of_read {body : Body} (greedy : body.Greedy)
    (failed : body.read = .error .exponent) : ExponentFault body.chars := by
  obtain ⟨digits, found, fault⟩ := read_eq_error_exponent.mp failed
  have isDigits := greedy.exponent digits found
  have numeral : Numeral (body.whole ++ marking '.' body.fraction?) body.whole
      (body.fraction?.getD []) :=
    numeral_iff.mpr ⟨greedy.whole, _, greedy.fraction, rfl, rfl⟩
  have text : body.chars =
      body.whole ++ marking '.' body.fraction? ++ 'x' :: (digits ++ body.leftover) := by
    rw [chars_eq, found, List.append_assoc]
    rfl
  rw [text]
  rcases fault with remains | ⟨nothingLeft, valid, outOfRange⟩
  · exact .leftover numeral isDigits remains greedy.ends
  · rw [nothingLeft, List.append_nil]
    refine .tooLarge ?_ isDigits ((power?_eq_none found).mp outOfRange)
    by_cases monic : body.IsMonic
    · left
      rw [monic.1, monic.2.1]
      rfl
    · right
      obtain ⟨c, computed⟩ := Option.ne_none_iff_exists'.mp valid
      obtain ⟨hasDigit, rounded⟩ := (magnitude?_eq_some monic).mp computed
      exact ⟨c, .numeral numeral hasDigit rounded⟩

theorem read_of_exponentFault {text : List Char} (fault : ExponentFault text) :
    (ofChars text).read = .error .exponent := by
  cases fault with
  | @leftover _ _ _ digits _ numeral isDigits nonempty ends =>
      obtain ⟨fraction?, rfl, rfl, cut⟩ :=
        @ofChars_numeral _ _ _ numeral (some digits) (by simpa using isDigits) _ ends (by simp)
      rw [marking_some, List.cons_append] at cut
      rw [cut, read_eq_error_exponent]
      exact ⟨digits, rfl, .inl nonempty⟩
  | @tooLarge _ digits coefficient isDigits tooLarge =>
      rcases coefficient with rfl | ⟨c, magnitude⟩
      · have cut := ofChars_variable isDigits endsDigits_nil
        rw [List.append_nil] at cut
        have monic : IsMonic ⟨[], none, some digits, []⟩ := ⟨rfl, rfl, nofun⟩
        rw [List.nil_append, cut, read_eq_error_exponent]
        refine ⟨digits, rfl, .inr ⟨rfl, ?_, (power?_eq_none rfl).mpr tooLarge⟩⟩
        rw [magnitude?_of_isMonic monic]
        exact Option.some_ne_none _
      · cases magnitude with
        | numeral numeral hasDigit rounded =>
            obtain ⟨fraction?, rfl, rfl, cut⟩ := @ofChars_numeral _ _ _ numeral (some digits)
              (by simpa using isDigits) _ endsDigits_nil fun _ => rfl
            rw [List.append_nil, marking_some] at cut
            rw [cut, read_eq_error_exponent]
            refine ⟨digits, rfl, .inr ⟨rfl, ?_, (power?_eq_none rfl).mpr tooLarge⟩⟩
            rw [(magnitude?_eq_some (not_isMonic hasDigit)).mpr ⟨hasDigit, rounded⟩]
            exact Option.some_ne_none _

/-- A body outside the grammar is refused, and its fault is in the exponent or else in the
coefficient. -/
theorem read_ofChars_eq_error_iff {text : List Char} {part : Part} :
    (ofChars text).read = .error part ↔
      (¬ ∃ term, UnsignedTerm text term) ∧ (part = .exponent ↔ ExponentFault text) := by
  have exponentFault_iff : (ofChars text).read = .error .exponent ↔ ExponentFault text := by
    constructor
    · intro failed
      have fault := exponentFault_of_read (greedy_ofChars text) failed
      rwa [chars_ofChars] at fault
    · exact read_of_exponentFault
  simp only [← read_ofChars_eq_ok_iff, ← exponentFault_iff]
  cases (ofChars text).read with
  | ok term => simp
  | error own => cases own <;> cases part <;> simp

end Body

/-! ## Segments -/

theorem Segment.read_eq_error {segment : Segment} {error : SyntaxError} :
    segment.read = .error error ↔
      error.offset = segment.offset ∧ ∃ part, (Body.ofChars segment.body).read = .error part ∧
        error.fault = .invalid part segment.text := by
  obtain ⟨offset, fault⟩ := error
  rw [Segment.read]
  cases (Body.ofChars segment.body).read with
  | error part => simp [eq_comm]
  | ok term => simp

theorem Segment.exists_read_eq_ok {segment : Segment} :
    (∃ term, segment.read = .ok term) ↔ readSigned (Segmentation.signedBody segment) ≠ none := by
  simp only [Segment.read_eq_ok, Option.ne_none_iff_exists']

namespace Segmentation

/-! ## Cuts -/

theorem cut_plain (text : List Char) :
    (∀ c ∈ (cut text).1, Sign.ofChar? c = none) ∧
      ∀ part ∈ (cut text).2, ∀ c ∈ part.2, Sign.ofChar? c = none := by
  induction text with
  | nil => exact ⟨List.forall_mem_nil _, List.forall_mem_nil _⟩
  | cons c rest inductionHypothesis =>
      obtain ⟨plainFirst, plainLater⟩ := inductionHypothesis
      rw [cut]
      cases isSign : Sign.ofChar? c with
      | none => exact ⟨List.forall_mem_cons.mpr ⟨isSign, plainFirst⟩, plainLater⟩
      | some sign =>
          exact ⟨List.forall_mem_nil _, List.forall_mem_cons.mpr ⟨plainFirst, plainLater⟩⟩

theorem startsTerm_nil : StartsTerm [] := nofun

theorem startsTerm_sign (sign : Sign) (rest : List Char) : StartsTerm (sign.char :: rest) := by
  intro c first
  obtain rfl := Option.mem_some_iff.mp first
  rw [Sign.ofChar?_char]
  exact Option.some_ne_none _

theorem startsTerm_join (parts : List (Sign × List Char)) : StartsTerm (join parts) := by
  cases parts with
  | nil => exact startsTerm_nil
  | cons part parts => exact startsTerm_sign part.1 _

theorem cut_of_startsTerm {text : List Char} (starts : StartsTerm text) : (cut text).1 = [] := by
  cases text with
  | nil => rfl
  | cons c rest =>
      rw [cut]
      cases isSign : Sign.ofChar? c with
      | none => exact absurd isSign (starts c rfl)
      | some sign => rfl

theorem cut_append_of_startsTerm (front : List Char) {back : List Char} (starts : StartsTerm back) :
    cut (front ++ back) = ((cut front).1, (cut front).2 ++ (cut back).2) := by
  induction front with
  | nil => exact Prod.ext (cut_of_startsTerm starts) rfl
  | cons c front inductionHypothesis =>
      rw [List.cons_append, cut, cut, inductionHypothesis]
      cases Sign.ofChar? c <;> rfl

/-! ## Reading one segment after the other -/

theorem read_cons (segment : Segment) (later : Segmentation) :
    read ⟨segment :: later.segments, later.failure?⟩ = (do
      let term ← segment.read
      let terms ← later.read
      return term :: terms) := by
  unfold read
  rw [List.mapM_cons]
  cases segment.read with
  | error error => rfl
  | ok term =>
      cases later.segments.mapM Segment.read with
      | error error => rfl
      | ok terms => cases later.failure? <;> rfl

/-- The sign and the body have a fault in front of the parts that follow. -/
def Unreadable (sign : Sign) (body : List Char) (later : List (Sign × List Char))
    (fault : Fault) : Prop :=
  body = [] ∧ fault = bareSign sign later ∨
    body ≠ [] ∧ ∃ part, (Body.ofChars body).read = .error part ∧
      fault = .invalid part (sign.char :: body)

/-- The fault of the first part that has one, and the offset of that part. -/
def FirstUnreadable (offset : Nat) (parts : List (Sign × List Char)) (error : SyntaxError) : Prop :=
  ∃ before sign body after, parts = before ++ (sign, body) :: after ∧
    (∀ part ∈ before, readSigned part ≠ none) ∧
    error.offset = offset + byteLength (join before) ∧ Unreadable sign body after error.fault

theorem firstUnreadable_cons {offset : Nat} {sign : Sign} {body : List Char}
    {parts : List (Sign × List Char)} {error : SyntaxError} :
    FirstUnreadable offset ((sign, body) :: parts) error ↔
      (error.offset = offset ∧ Unreadable sign body parts error.fault) ∨
      (readSigned (sign, body) ≠ none ∧
        FirstUnreadable (offset + byteLength (sign.char :: body)) parts error) := by
  constructor
  · rintro ⟨before, own, ownBody, after, same, readable, located, unreadable⟩
    cases before with
    | nil =>
        obtain ⟨⟨rfl, rfl⟩, rfl⟩ := List.cons.inj same
        exact .inl ⟨located, unreadable⟩
    | cons part before =>
        obtain ⟨rfl, rfl⟩ := List.cons.inj same
        obtain ⟨readableFirst, readableRest⟩ := List.forall_mem_cons.mp readable
        refine .inr ⟨readableFirst, before, own, ownBody, after, rfl, readableRest, ?_, unreadable⟩
        rw [located, join, List.flatMap_cons, ← join, byteLength_append, Nat.add_assoc]
  · rintro (⟨located, unreadable⟩ |
      ⟨readableFirst, before, own, ownBody, after, rfl, readableRest, located, unreadable⟩)
    · exact ⟨[], sign, body, parts, rfl, List.forall_mem_nil _, located, unreadable⟩
    · refine ⟨(sign, body) :: before, own, ownBody, after, rfl,
        List.forall_mem_cons.mpr ⟨readableFirst, readableRest⟩, ?_, unreadable⟩
      rw [located, join, join, List.flatMap_cons, byteLength_append, Nat.add_assoc]

theorem read_cons_eq_error {segment : Segment} {later : Segmentation} {error : SyntaxError} :
    read ⟨segment :: later.segments, later.failure?⟩ = .error error ↔
      segment.read = .error error ∨
        readSigned (signedBody segment) ≠ none ∧ later.read = .error error := by
  simp only [read_cons, Traversal.bind_eq_error, ← Segment.exists_read_eq_ok]
  apply or_congr_right
  constructor
  · rintro ⟨term, computed, failed | ⟨terms, _, impossible⟩⟩
    · exact ⟨⟨term, computed⟩, failed⟩
    · cases impossible
  · rintro ⟨⟨term, computed⟩, failed⟩
    exact ⟨term, computed, .inl failed⟩

theorem read_ofSigned_eq_error {offset : Nat} {parts : List (Sign × List Char)}
    {error : SyntaxError} :
    (ofSigned offset parts).read = .error error ↔ FirstUnreadable offset parts error := by
  induction parts generalizing offset with
  | nil =>
      refine iff_of_false nofun ?_
      rintro ⟨before, _, _, _, empty, _⟩
      cases before <;> cases empty
  | cons part parts inductionHypothesis =>
      obtain ⟨sign, body⟩ := part
      rw [firstUnreadable_cons]
      cases body with
      | nil =>
          obtain ⟨own, fault⟩ := error
          have notRead : readSigned (sign, []) = none := rfl
          show Except.error (SyntaxError.mk offset (bareSign sign parts)) = _ ↔ _
          simp [Unreadable, notRead, eq_comm]
      | cons c body =>
          rw [ofSigned, read_cons_eq_error, inductionHypothesis, Segment.read_eq_error]
          simp only [Unreadable, reduceCtorEq, false_and, ne_eq, not_false_eq_true, true_and,
            false_or]
          rfl

theorem exists_unreadable {text : List Char} (starts : StartsTerm text) {fault : Fault}
    (malformed : Malformed text fault) :
    ∃ sign body after, cut text = ([], (sign, body) :: after) ∧
      Unreadable sign body after fault := by
  cases malformed with
  | emptyTerm sign => exact ⟨sign, [], [], cut_sign sign [], .inl ⟨rfl, rfl⟩⟩
  | doubledSign sign next rest =>
      refine ⟨sign, [], (next, (cut rest).1) :: (cut rest).2, ?_, .inl ⟨rfl, rfl⟩⟩
      rw [cut_sign, cut_sign]
  | @term sign? body rest part plain nonempty ends unreadable part_iff =>
      cases sign? with
      | none =>
          obtain ⟨c, body, rfl⟩ := List.exists_cons_of_ne_nil nonempty
          exact absurd (plain c List.mem_cons_self) (starts c rfl)
      | some sign =>
          refine ⟨sign, body, (cut rest).2, ?_, .inr ⟨nonempty, part, ?_, rfl⟩⟩
          · show cut (sign.char :: (body ++ rest)) = _
            rw [cut_sign, cut_append plain, cut_of_startsTerm ends, List.append_nil]
          · exact Body.read_ofChars_eq_error_iff.mpr ⟨unreadable, part_iff⟩

/-- A text that is malformed in front of its first sign. -/
theorem unsigned_of_malformed {text : List Char} (unsigned : ¬ StartsTerm text) {fault : Fault}
    (malformed : Malformed text fault) :
    (cut text).1 ≠ [] ∧ ∃ part, (Body.ofChars (cut text).1).read = .error part ∧
      fault = .invalid part (cut text).1 := by
  cases malformed with
  | emptyTerm sign => exact absurd (startsTerm_sign sign []) unsigned
  | doubledSign sign next rest => exact absurd (startsTerm_sign sign _) unsigned
  | @term sign? body rest part plain nonempty ends outside part_iff =>
      cases sign? with
      | none =>
          have parts : cut (signChars none ++ body ++ rest) = (body, (cut rest).2) := by
            show cut (body ++ rest) = _
            rw [cut_append plain, cut_of_startsTerm ends, List.append_nil]
          rw [parts]
          exact ⟨nonempty, part, Body.read_ofChars_eq_error_iff.mpr ⟨outside, part_iff⟩, rfl⟩
      | some sign => exact absurd (startsTerm_sign sign (body ++ rest)) unsigned

theorem malformed_join {sign : Sign} {body : List Char} {after : List (Sign × List Char)}
    (plain : ∀ c ∈ body, Sign.ofChar? c = none) {fault : Fault}
    (unreadable : Unreadable sign body after fault) :
    Malformed (join ((sign, body) :: after)) fault := by
  rcases unreadable with ⟨rfl, rfl⟩ | ⟨nonempty, part, failed, rfl⟩
  · cases after with
    | nil => exact .emptyTerm sign
    | cons next after => exact .doubledSign sign next.1 _
  · obtain ⟨outside, part_iff⟩ := Body.read_ofChars_eq_error_iff.mp failed
    exact @Malformed.term (some sign) _ _ _ plain nonempty (startsTerm_join after) outside part_iff

end Segmentation

/-! ## Reading a text -/

open Segmentation (cut join FirstUnreadable)

/-- What stands in front of the first sign can be read, if anything does. -/
def ReadsUnsigned (body : List Char) : Prop := body = [] ∨ readSigned (.plus, body) ≠ none

theorem exists_readTerms_eq_ok {text : List Char} :
    (∃ terms, readTerms text = .ok terms) ↔
      ReadsUnsigned (cut text).1 ∧ ∀ part ∈ (cut text).2, readSigned part ≠ none := by
  have all : (∃ terms, readTerms text = .ok terms) ↔
      ∀ part ∈ Segmentation.signedBodies text, readSigned part ≠ none := by
    simp only [readTerms_eq_ok, exists_and_left, Traversal.exists_map_eq_map_some]
    refine and_iff_right_of_imp fun readable part member noBody => readable part member ?_
    rw [← Prod.eta part, noBody]
    rfl
  rw [all, Segmentation.signedBodies, ReadsUnsigned]
  by_cases unsigned : (cut text).1 = []
  · simp [unsigned]
  · simp [unsigned]

theorem readTerms_eq_error {text : List Char} {error : SyntaxError} :
    readTerms text = .error error ↔
      (error.offset = 0 ∧ (cut text).1 ≠ [] ∧
        ∃ part, (Body.ofChars (cut text).1).read = .error part ∧
          error.fault = .invalid part (cut text).1) ∨
      (ReadsUnsigned (cut text).1 ∧
        FirstUnreadable (byteLength (cut text).1) (cut text).2 error) := by
  rw [readTerms, Segmentation.ofChars, ReadsUnsigned]
  by_cases unsigned : (cut text).1 = []
  · rw [if_pos unsigned, Segmentation.read_ofSigned_eq_error, unsigned]
    simp [byteLength]
  · rw [if_neg unsigned, Segmentation.read_cons_eq_error, Segmentation.read_ofSigned_eq_error,
      Segment.read_eq_error]
    simp only [unsigned, false_or, ne_eq, not_false_eq_true, true_and]
    rfl

theorem exists_malformed_of_readTerms {text : List Char} {error : SyntaxError}
    (failed : readTerms text = .error error) :
    ∃ front back, text = front ++ back ∧ error.offset = byteLength front ∧
      (∃ terms, readTerms front = .ok terms) ∧ (front = [] ∨ StartsTerm back) ∧
      Malformed back error.fault := by
  have whole : (cut text).1 ++ join (cut text).2 = text := Segmentation.cut_join text
  obtain ⟨plainFirst, plainLater⟩ := Segmentation.cut_plain text
  rcases readTerms_eq_error.mp failed with
    ⟨atStart, nonempty, part, unreadable, fault⟩ |
    ⟨readable, before, sign, body, after, parts, readableBefore, located, unreadable⟩
  · obtain ⟨outside, part_iff⟩ := Body.read_ofChars_eq_error_iff.mp unreadable
    have malformed := @Malformed.term none _ _ _ plainFirst nonempty
      (Segmentation.startsTerm_join (cut text).2) outside part_iff
    refine ⟨[], text, rfl, atStart, ⟨[], rfl⟩, .inl rfl, ?_⟩
    rw [fault]
    rwa [List.append_assoc, whole] at malformed
  · rw [parts] at whole plainLater
    -- On its own, the front is cut into the parts in front of the one at fault.
    have front : cut ((cut text).1 ++ join before) = ((cut text).1, before) := by
      rw [Segmentation.cut_append plainFirst, Segmentation.cut_join_of_plain
        fun part member => plainLater part (List.mem_append_left _ member), List.append_nil]
    refine ⟨(cut text).1 ++ join before, join ((sign, body) :: after), ?_, ?_, ?_, ?_, ?_⟩
    · calc
        text = (cut text).1 ++ join (before ++ (sign, body) :: after) := whole.symm
        _ = _ := by rw [join, join, join, List.flatMap_append, List.append_assoc]
    · rw [located, byteLength_append]
    · rw [exists_readTerms_eq_ok, front]
      exact ⟨readable, readableBefore⟩
    · exact .inr (Segmentation.startsTerm_join _)
    · refine Segmentation.malformed_join ?_ unreadable
      exact plainLater (sign, body) (List.mem_append_right _ List.mem_cons_self)

theorem readTerms_of_malformed {front back : List Char} {error : SyntaxError}
    (located : error.offset = byteLength front) (readable : ∃ terms, readTerms front = .ok terms)
    (starts : front = [] ∨ StartsTerm back) (malformed : Malformed back error.fault) :
    readTerms (front ++ back) = .error error := by
  rw [readTerms_eq_error]
  by_cases startsBack : StartsTerm back
  · obtain ⟨sign, body, after, parts, unreadable⟩ :=
      Segmentation.exists_unreadable startsBack malformed
    obtain ⟨readableFirst, readableLater⟩ := exists_readTerms_eq_ok.mp readable
    have whole : (cut front).1 ++ join (cut front).2 = front := Segmentation.cut_join front
    rw [Segmentation.cut_append_of_startsTerm front startsBack, parts]
    refine .inr ⟨readableFirst, (cut front).2, sign, body, after, rfl, readableLater, ?_,
      unreadable⟩
    rw [located, ← byteLength_append, whole]
  · obtain rfl := starts.resolve_right startsBack
    exact .inl ⟨located, Segmentation.unsigned_of_malformed startsBack malformed⟩

/-- An error stands where everything in front of it can be read and the text goes on with its
fault. -/
theorem readTerms_eq_error_iff {text : List Char} {error : SyntaxError} :
    readTerms text = .error error ↔
      ∃ front back, text = front ++ back ∧ error.offset = byteLength front ∧
        (∃ terms, readTerms front = .ok terms) ∧ (front = [] ∨ StartsTerm back) ∧
        Malformed back error.fault := by
  constructor
  · exact exists_malformed_of_readTerms
  · rintro ⟨front, back, rfl, located, readable, starts, malformed⟩
    exact readTerms_of_malformed located readable starts malformed

end SparsePolynomial.Text
