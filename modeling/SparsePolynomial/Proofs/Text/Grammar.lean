import SparsePolynomial.Proofs.Binary64.Rounding
import SparsePolynomial.Proofs.Text.Segment

/-!
Contract: the grammar of texts, with the meaning of each text in it.

Owns:
- `UnsignedTerm`, a numeral, a power of the variable or both, and `SignedTerms` and `Terms`, which
  put signs in front of them: every term has one, except that the first may go without;
- `readTerms_eq_ok_iff`: what is read from a text is what the grammar says, so no other text is
  read at all;
- `parse_eq_ok_iff`: the polynomial of a text is the sum of the terms that the grammar finds.

The grammar says nothing about how a text is cut. It has one reading for each text, because signs
stand in front of terms only and a point or an `x` ends a run of digits.
-/

set_option autoImplicit false

namespace SparsePolynomial.Text

open Binary64 (IsNearest infinityRank ofRank)

namespace Grammar

/-! ## The grammar -/

/-- Digits with at most one point, from the digits in front of the point and those behind it. -/
inductive Numeral : List Char → List Char → List Char → Prop where
  | whole {digits : List Char} (isDigits : Digits digits) : Numeral digits digits []
  | point {whole fraction : List Char} (wholeDigits : Digits whole)
      (fractionDigits : Digits fraction) : Numeral (whole ++ '.' :: fraction) whole fraction

/-- The number nearest to what digits in front of a point and digits behind it stand for, if that is
a finite number. -/
def Rounded (whole fraction : List Char) (c : Float) : Prop :=
  ∃ r, IsNearest (Nat.ofDigitChars 10 (whole ++ fraction) 0) (Nat.pow 10 fraction.length) r ∧
    r < infinityRank ∧ c = ofRank r

/-- A numeral with at least one digit, and its value. -/
inductive Magnitude : List Char → Float → Prop where
  | numeral {text whole fraction : List Char} {c : Float} (numeral : Numeral text whole fraction)
      (hasDigit : whole ++ fraction ≠ []) (rounded : Rounded whole fraction c) : Magnitude text c

/-- The digits of an exponent, leading zeros included. No digits stand for the first power. -/
inductive Power : List Char → UInt64 → Prop where
  | first : Power [] 1
  | digits {digits : List Char} (isDigits : Digits digits) (hasDigit : digits ≠ [])
      (atMost : Nat.ofDigitChars 10 digits 0 ≤ largestExponent) :
      Power digits (.ofNat (Nat.ofDigitChars 10 digits 0))

/-- A term without its sign. -/
inductive UnsignedTerm : List Char → Term → Prop where
  | constant {text : List Char} {c : Float} (magnitude : Magnitude text c) :
      UnsignedTerm text ⟨c, 0⟩
  | multiple {text digits : List Char} {c : Float} {exponent : UInt64}
      (magnitude : Magnitude text c) (power : Power digits exponent) :
      UnsignedTerm (text ++ 'x' :: digits) ⟨c, exponent⟩
  | monic {digits : List Char} {exponent : UInt64} (power : Power digits exponent) :
      UnsignedTerm ('x' :: digits) ⟨1.0, exponent⟩

/-- The term with a sign in front. -/
def withSign (sign : Sign) (term : Term) : Term := ⟨sign.apply term.coefficient, term.exponent⟩

/-- Any number of terms, each behind its sign. -/
inductive SignedTerms : List Char → List Term → Prop where
  | nil : SignedTerms [] []
  | cons {sign : Sign} {body rest : List Char} {term : Term} {terms : List Term}
      (first : UnsignedTerm body term) (later : SignedTerms rest terms) :
      SignedTerms (sign.char :: (body ++ rest)) (withSign sign term :: terms)

/-- Any number of terms, of which the first may go without a sign. -/
inductive Terms : List Char → List Term → Prop where
  | signed {text : List Char} {terms : List Term} (all : SignedTerms text terms) :
      Terms text terms
  | unsigned {body rest : List Char} {term : Term} {terms : List Term}
      (first : UnsignedTerm body term) (later : SignedTerms rest terms) :
      Terms (body ++ rest) (term :: terms)

/-! ## Numerals and powers -/

theorem numeral_iff {text whole fraction : List Char} :
    Numeral text whole fraction ↔
      Digits whole ∧ ∃ fraction?, (∀ digits ∈ fraction?, Digits digits) ∧
        text = whole ++ Body.marking '.' fraction? ∧ fraction = fraction?.getD [] := by
  constructor
  · intro numeral
    cases numeral with
    | whole isDigits => exact ⟨isDigits, none, nofun, (List.append_nil _).symm, rfl⟩
    | point wholeDigits fractionDigits =>
        exact ⟨wholeDigits, some fraction, by simpa using fractionDigits, rfl, rfl⟩
  · rintro ⟨wholeDigits, fraction?, fractionDigits, rfl, rfl⟩
    cases fraction? with
    | none =>
        rw [Body.marking_none, List.append_nil]
        exact .whole wholeDigits
    | some digits => exact .point wholeDigits (fractionDigits digits rfl)

theorem Power.isDigits {digits : List Char} {exponent : UInt64} (power : Power digits exponent) :
    Digits digits := by
  cases power with
  | first => exact nofun
  | digits isDigits _ _ => exact isDigits

theorem rounded_iff {whole fraction : List Char} {c : Float} :
    Rounded whole fraction c ↔
      (Decimal.ofDigits whole fraction).rank < infinityRank ∧
        c = (Decimal.ofDigits whole fraction).toFloat := by
  have positive : 0 < Nat.pow 10 fraction.length := Nat.pow_pos (by decide)
  simp only [Rounded, Binary64.isNearest_iff positive]
  exact exists_eq_left

end Grammar

open Grammar

namespace Body

/-! ## Reading a body -/

/-- The coefficient is left out in front of the variable. -/
def IsMonic (body : Body) : Prop :=
  body.whole = [] ∧ body.fraction? = none ∧ body.exponent? ≠ none

theorem magnitude?_of_isMonic {body : Body} (monic : body.IsMonic) :
    body.magnitude? = some 1.0 :=
  if_pos monic

theorem magnitude?_eq_some {body : Body} (notMonic : ¬ body.IsMonic) {c : Float} :
    body.magnitude? = some c ↔
      body.whole ++ body.fraction?.getD [] ≠ [] ∧
        Rounded body.whole (body.fraction?.getD []) c := by
  have explicit : body.magnitude? = body.decimal?.bind fun decimal =>
      if decimal.rank < infinityRank then some decimal.toFloat else none := if_neg notMonic
  rw [explicit, decimal?, rounded_iff]
  by_cases noDigit : body.whole ++ body.fraction?.getD [] = []
  · rw [if_pos noDigit, Option.bind_none]
    exact iff_of_false nofun fun given => given.1 noDigit
  · rw [if_neg noDigit, Option.bind_some, and_iff_right noDigit]
    by_cases finite : (Decimal.ofDigits body.whole (body.fraction?.getD [])).rank < infinityRank
    · rw [if_pos finite, and_iff_right finite, Option.some_inj, eq_comm]
    · rw [if_neg finite]
      exact iff_of_false nofun fun given => finite given.1

theorem power?_of_none {body : Body} (missing : body.exponent? = none) : body.power? = some 0 := by
  rw [power?, missing]

theorem power?_eq_some {body : Body} {digits : List Char} (found : body.exponent? = some digits)
    (isDigits : Digits digits) {exponent : UInt64} :
    body.power? = some exponent ↔ Power digits exponent := by
  rw [power?, found]
  cases digits with
  | nil =>
      constructor
      · rintro ⟨⟩
        exact .first
      · intro power
        cases power with
        | first => rfl
        | digits _ hasDigit _ => exact absurd rfl hasDigit
  | cons c rest =>
      have hasDigit := List.cons_ne_nil c rest
      dsimp only
      constructor
      · intro same
        split at same
        · cases same
          exact .digits isDigits hasDigit ‹_›
        · cases same
      · intro power
        cases power with
        | digits _ _ atMost => exact if_pos atMost

theorem read_eq_ok {body : Body} {term : Term} :
    body.read = .ok term ↔
      body.leftover = [] ∧ body.magnitude? = some term.coefficient ∧
        body.power? = some term.exponent := by
  rw [read]
  by_cases nothingLeft : body.leftover = []
  · rw [if_neg (not_not_intro nothingLeft)]
    cases body.magnitude? with
    | none => simp
    | some c =>
        cases body.power? with
        | none => simp
        | some exponent =>
            obtain ⟨own, power⟩ := term
            simp [nothingLeft]
  · simp [nothingLeft]

theorem unsignedTerm_of_read {body : Body} (greedy : body.Greedy) {term : Term}
    (computed : body.read = .ok term) : UnsignedTerm body.chars term := by
  obtain ⟨c, exponent⟩ := term
  obtain ⟨nothingLeft, magnitude, power⟩ := read_eq_ok.mp computed
  have text : body.chars = body.whole ++ marking '.' body.fraction? ++
      marking 'x' body.exponent? := by
    rw [chars_eq, nothingLeft, List.append_nil, List.append_assoc]
  have explicit (notMonic : ¬ body.IsMonic) :
      Magnitude (body.whole ++ marking '.' body.fraction?) c := by
    obtain ⟨hasDigit, rounded⟩ := (magnitude?_eq_some notMonic).mp magnitude
    exact .numeral (numeral_iff.mpr ⟨greedy.whole, _, greedy.fraction, rfl, rfl⟩) hasDigit rounded
  rw [text]
  cases found : body.exponent? with
  | none =>
      rw [power?_of_none found] at power
      cases power
      rw [marking_none, List.append_nil]
      exact .constant (explicit fun monic => monic.2.2 found)
  | some digits =>
      have isPower := (power?_eq_some found (greedy.exponent digits found)).mp power
      by_cases monic : body.IsMonic
      · rw [magnitude?_of_isMonic monic] at magnitude
        cases magnitude
        rw [monic.1, monic.2.1]
        exact .monic isPower
      · exact .multiple (explicit monic) isPower

/-- A numeral is found again in front of an exponent, whatever is left over behind that. -/
theorem ofChars_numeral {text whole fraction : List Char} (numeral : Numeral text whole fraction)
    {exponent? : Option (List Char)} (exponentDigits : ∀ digits ∈ exponent?, Digits digits)
    {leftover : List Char} (ends : EndsDigits leftover)
    (noLeftover : exponent? = none → leftover = []) :
    ∃ fraction?, fraction = fraction?.getD [] ∧ text = whole ++ marking '.' fraction? ∧
      ofChars (text ++ (marking 'x' exponent? ++ leftover)) =
        ⟨whole, fraction?, exponent?, leftover⟩ := by
  obtain ⟨wholeDigits, fraction?, fractionDigits, rfl, rfl⟩ := numeral_iff.mp numeral
  refine ⟨fraction?, rfl, rfl, ofChars_eq_iff.mpr ⟨?_, ?_⟩⟩
  · exact {
      whole := wholeDigits
      fraction := fractionDigits
      exponent := exponentDigits
      ends := ends
      noPoint := fun _ missing => by simp [noLeftover missing]
      noVariable := fun missing => by simp [noLeftover missing]
    }
  · rw [chars_eq, List.append_assoc]

theorem ofChars_variable {digits leftover : List Char} (isDigits : Digits digits)
    (ends : EndsDigits leftover) :
    ofChars ('x' :: (digits ++ leftover)) = ⟨[], none, some digits, leftover⟩ := by
  obtain ⟨fraction?, _, empty, cut⟩ :=
    @ofChars_numeral [] [] [] (.whole nofun) (some digits) (by simpa using isDigits) _ ends nofun
  cases fraction? with
  | none => exact cut
  | some fraction => cases empty

theorem not_isMonic {body : Body} (hasDigit : body.whole ++ body.fraction?.getD [] ≠ []) :
    ¬ body.IsMonic := by
  rintro ⟨noWhole, noFraction, _⟩
  rw [noWhole, noFraction] at hasDigit
  exact hasDigit rfl

theorem read_of_magnitude {text : List Char} {c : Float} (magnitude : Magnitude text c)
    {exponent? : Option (List Char)} (exponentDigits : ∀ digits ∈ exponent?, Digits digits)
    {exponent : UInt64}
    (power : ∀ body : Body, body.exponent? = exponent? → body.power? = some exponent) :
    (ofChars (text ++ marking 'x' exponent?)).read = .ok ⟨c, exponent⟩ := by
  cases magnitude with
  | numeral numeral hasDigit rounded =>
      obtain ⟨fraction?, rfl, rfl, cut⟩ :=
        ofChars_numeral numeral exponentDigits endsDigits_nil fun _ => rfl
      rw [List.append_nil] at cut
      rw [cut, read_eq_ok]
      exact ⟨rfl, (magnitude?_eq_some (not_isMonic hasDigit)).mpr ⟨hasDigit, rounded⟩, power _ rfl⟩

theorem read_of_unsignedTerm {text : List Char} {term : Term} (unsigned : UnsignedTerm text term) :
    (ofChars text).read = .ok term := by
  cases unsigned with
  | constant magnitude =>
      have computed := @read_of_magnitude text _ magnitude none nofun _ fun _ => power?_of_none
      rwa [marking_none, List.append_nil] at computed
  | @multiple _ digits _ _ magnitude power =>
      apply @read_of_magnitude _ _ magnitude (some digits)
      · simpa using power.isDigits
      · exact fun body found => (power?_eq_some found power.isDigits).mpr power
  | @monic digits _ power =>
      have cut := ofChars_variable power.isDigits endsDigits_nil
      rw [List.append_nil] at cut
      rw [cut, read_eq_ok]
      exact ⟨rfl, magnitude?_of_isMonic ⟨rfl, rfl, nofun⟩,
        (power?_eq_some rfl power.isDigits).mpr power⟩

/-- What is read from a body is what the grammar says. -/
theorem read_ofChars_eq_ok_iff {text : List Char} {term : Term} :
    (ofChars text).read = .ok term ↔ UnsignedTerm text term := by
  constructor
  · intro computed
    have unsigned := unsignedTerm_of_read (greedy_ofChars text) computed
    rwa [chars_ofChars] at unsigned
  · exact read_of_unsignedTerm

end Body

/-! ## Reading a text -/

theorem readSigned_eq_some_iff {part : Sign × List Char} {term : Term} :
    readSigned part = some term ↔
      ∃ own, UnsignedTerm part.2 own ∧ withSign part.1 own = term := by
  simp only [← Body.read_ofChars_eq_ok_iff]
  rw [readSigned]
  cases (Body.ofChars part.2).read with
  | error fault => simp
  | ok own => simp [withSign]

theorem Grammar.UnsignedTerm.plain {body : List Char} {term : Term}
    (unsigned : UnsignedTerm body term) : ∀ c ∈ body, Sign.ofChar? c = none := by
  have computed := Body.read_ofChars_eq_ok_iff.mpr unsigned
  exact fun c member =>
    Sign.ofChar?_of_allowed (Body.allowed_of_leftover (Body.leftover_of_read computed) c member)

theorem Grammar.UnsignedTerm.ne_nil {body : List Char} {term : Term}
    (unsigned : UnsignedTerm body term) : body ≠ [] := by
  rintro rfl
  have computed := Body.read_ofChars_eq_ok_iff.mpr unsigned
  have noDigit := (Body.read_eq_ok.mp computed).2.1
  have missing := ((Body.magnitude?_eq_some fun monic => monic.2.2 rfl).mp noDigit).1
  exact missing rfl

theorem unsignedTerm_of_map {parts : List (Sign × List Char)} {terms : List Term}
    (read : parts.map readSigned = terms.map some) :
    ∀ part ∈ parts, ∃ own, UnsignedTerm part.2 own := by
  intro part member
  have mapped := List.mem_map_of_mem (f := readSigned) member
  rw [read] at mapped
  obtain ⟨term, _, same⟩ := List.mem_map.mp mapped
  obtain ⟨own, unsigned, _⟩ := readSigned_eq_some_iff.mp same.symm
  exact ⟨own, unsigned⟩

/-- A text of signed terms is put together from signs and bodies each of which can be read. -/
theorem signedTerms_iff {text : List Char} {terms : List Term} :
    SignedTerms text terms ↔
      ∃ parts, text = Segmentation.join parts ∧ parts.map readSigned = terms.map some := by
  constructor
  · intro all
    induction all with
    | nil => exact ⟨[], rfl, rfl⟩
    | @cons sign body rest term terms first later inductionHypothesis =>
        obtain ⟨parts, rfl, read⟩ := inductionHypothesis
        refine ⟨(sign, body) :: parts, rfl, ?_⟩
        rw [List.map_cons, List.map_cons, read, readSigned_eq_some_iff.mpr ⟨term, first, rfl⟩]
  · rintro ⟨parts, rfl, read⟩
    induction parts generalizing terms with
    | nil =>
        obtain rfl := List.map_eq_nil_iff.mp read.symm
        exact .nil
    | cons part parts inductionHypothesis =>
        obtain ⟨term, others, rfl, first, later⟩ := List.map_eq_cons_iff.mp read.symm
        obtain ⟨own, unsigned, rfl⟩ := readSigned_eq_some_iff.mp first.symm
        exact .cons unsigned (inductionHypothesis later.symm)

/-- The cuts find the parts of a text of signed terms behind a body without sign. -/
theorem cut_append_join {body : List Char} (plain : ∀ c ∈ body, Sign.ofChar? c = none)
    {parts : List (Sign × List Char)} {terms : List Term}
    (read : parts.map readSigned = terms.map some) :
    Segmentation.cut (body ++ Segmentation.join parts) = (body, parts) := by
  have plainParts : ∀ part ∈ parts, ∀ c ∈ part.2, Sign.ofChar? c = none := by
    intro part member
    obtain ⟨own, unsigned⟩ := unsignedTerm_of_map read part member
    exact unsigned.plain
  rw [Segmentation.cut_append plain, Segmentation.cut_join_of_plain plainParts, List.append_nil]

/-- What is read from a text is what the grammar says. -/
theorem readTerms_eq_ok_iff {text : List Char} {terms : List Term} :
    readTerms text = .ok terms ↔ Terms text terms := by
  rw [readTerms_eq_ok]
  constructor
  · rintro ⟨_, read⟩
    have whole := Segmentation.cut_join text
    change (Segmentation.cut text).1 ++ Segmentation.join (Segmentation.cut text).2 = text at whole
    rw [Segmentation.signedBodies] at read
    split at read
    · rename_i signed
      rw [signed, List.nil_append] at whole
      exact .signed (signedTerms_iff.mpr ⟨_, whole.symm, read⟩)
    · obtain ⟨term, others, rfl, first, later⟩ := List.map_eq_cons_iff.mp read.symm
      obtain ⟨own, unsigned, rfl⟩ := readSigned_eq_some_iff.mp first.symm
      rw [← whole]
      exact .unsigned unsigned (signedTerms_iff.mpr ⟨_, rfl, later.symm⟩)
  · intro isText
    have bodies {parts : List (Sign × List Char)} {terms : List Term}
        (read : parts.map readSigned = terms.map some) : ∀ part ∈ parts, part.2 ≠ [] := by
      intro part member
      obtain ⟨own, unsigned⟩ := unsignedTerm_of_map read part member
      exact unsigned.ne_nil
    cases isText with
    | signed all =>
        obtain ⟨parts, rfl, read⟩ := signedTerms_iff.mp all
        have cut := @cut_append_join [] (List.forall_mem_nil _) parts terms read
        rw [List.nil_append] at cut
        rw [Segmentation.signedBodies, cut, if_pos rfl]
        exact ⟨bodies read, read⟩
    | @unsigned body _ term others first later =>
        obtain ⟨parts, rfl, read⟩ := signedTerms_iff.mp later
        rw [Segmentation.signedBodies, cut_append_join first.plain read, if_neg first.ne_nil]
        have all : ((Sign.plus, body) :: parts).map readSigned = (term :: others).map some := by
          rw [List.map_cons, List.map_cons, read, readSigned_eq_some_iff.mpr ⟨term, first, rfl⟩]
          rfl
        exact ⟨bodies all, all⟩

/-- A text stands for a polynomial exactly if the grammar finds terms in it, and then for the sum of
these terms. -/
theorem parse_eq_ok_iff (text : String) (p : Polynomial) :
    parse text = .ok p ↔ ∃ terms, Terms text.toList terms ∧ p = .ofTerms terms := by
  rw [parse, Traversal.map_eq_ok]
  exact exists_congr fun terms => and_congr readTerms_eq_ok_iff eq_comm

end SparsePolynomial.Text
