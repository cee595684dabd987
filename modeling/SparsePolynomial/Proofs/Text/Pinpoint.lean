import SparsePolynomial.Proofs.Text.Malformed

/-!
Contract: what an error says about the text that it refuses.

Owns:
- what a malformed text and its fault have to do with each other, one lemma for each kind of fault;
- `Pinpoints`: an error splits the text at a byte offset, in front of which everything can be read,
  and behind which the text starts with the term that is reported;
- `pinpoints_of_parse_eq_error`: every error does so, and nothing behind the term at fault has a
  part in it.
-/

set_option autoImplicit false

namespace SparsePolynomial.Text

namespace Malformed

/-! ## Faults and texts -/

/-- A term with a body never has a sign behind its sign, nor stops there. -/
theorem exists_not_sign {sign? : Option Sign} {body rest : List Char}
    (plain : ∀ c ∈ body, Sign.ofChar? c = none) (nonempty : body ≠ []) {sign : Sign}
    {more : List Char} (same : signChars sign? ++ body ++ rest = sign.char :: more) :
    ∃ c ∈ more.head?, Sign.ofChar? c = none := by
  obtain ⟨c, body, rfl⟩ := List.exists_cons_of_ne_nil nonempty
  have plainFirst := plain c List.mem_cons_self
  cases sign? with
  | none =>
      obtain ⟨rfl, _⟩ := List.cons.inj same
      simp at plainFirst
  | some own =>
      obtain ⟨_, rfl⟩ := List.cons.inj same
      exact ⟨c, rfl, plainFirst⟩

theorem emptyTerm_iff {text : List Char} {fault : Fault} (malformed : Malformed text fault) :
    fault = .emptyTerm ↔ ∃ sign : Sign, text = [sign.char] := by
  cases malformed with
  | emptyTerm sign => exact iff_of_true rfl ⟨sign, rfl⟩
  | doubledSign sign next rest => simp
  | term plain nonempty ends outside part_iff =>
      refine iff_of_false nofun ?_
      rintro ⟨sign, same⟩
      obtain ⟨c, impossible, _⟩ := exists_not_sign plain nonempty same
      cases impossible

theorem of_doubledSign {sign next : Sign} {rest : List Char} {fault : Fault}
    (malformed : Malformed (sign.char :: next.char :: rest) fault) :
    fault = .invalid .coefficient [sign.char, next.char] := by
  generalize split : sign.char :: next.char :: rest = text at malformed
  cases malformed with
  | emptyTerm own => simp at split
  | doubledSign own other more =>
      obtain ⟨same, later⟩ := List.cons.inj split
      rw [same, (List.cons.inj later).1]
  | term plain nonempty ends outside part_iff =>
      obtain ⟨c, first, notSign⟩ := exists_not_sign plain nonempty split.symm
      obtain rfl := Option.mem_some_iff.mp first
      simp at notSign

theorem prefix_of_term {text term : List Char} {part : Part}
    (malformed : Malformed text (.invalid part term)) : term ≠ [] ∧ term <+: text := by
  cases malformed with
  | doubledSign sign next rest => exact ⟨List.cons_ne_nil _ _, rest, rfl⟩
  | @term _ _ rest _ plain nonempty ends outside part_iff =>
      exact ⟨List.append_ne_nil_of_right_ne_nil _ nonempty, rest, rfl⟩

/-- Only the term itself makes the text malformed. -/
theorem append {text term : List Char} {part : Part}
    (malformed : Malformed text (.invalid part term)) {rest : List Char}
    (ends : StartsTerm rest) : Malformed (term ++ rest) (.invalid part term) := by
  cases malformed with
  | doubledSign sign next _ => exact .doubledSign sign next rest
  | term plain nonempty _ outside part_iff => exact .term plain nonempty ends outside part_iff

end Malformed

theorem startsTerm_append_iff {term text : List Char} (nonempty : term ≠ [])
    (isPrefix : term <+: text) (rest : List Char) :
    StartsTerm (term ++ rest) ↔ StartsTerm text := by
  obtain ⟨more, rfl⟩ := isPrefix
  obtain ⟨c, term, rfl⟩ := List.exists_cons_of_ne_nil nonempty
  exact Iff.rfl

/-! ## Errors of a text -/

theorem utf8ByteSize_ofList (text : List Char) :
    (String.ofList text).utf8ByteSize = byteLength text := by
  induction text with
  | nil => rfl
  | cons c text inductionHypothesis =>
      rw [String.ofList_cons, String.utf8ByteSize_append, String.utf8ByteSize_singleton,
        inductionHypothesis, byteLength]

theorem exists_parse_eq_ok {text : String} :
    (∃ p, parse text = .ok p) ↔ ∃ terms, readTerms text.toList = .ok terms := by
  simp only [parse, Traversal.map_eq_ok]
  constructor
  · rintro ⟨_, terms, computed, _⟩
    exact ⟨terms, computed⟩
  · rintro ⟨terms, computed⟩
    exact ⟨_, terms, computed, rfl⟩

theorem mem_term?_iff {error : SyntaxError} {term : List Char} :
    term ∈ error.term? ↔ ∃ part, error.fault = .invalid part term := by
  obtain ⟨offset, fault⟩ := error
  cases fault <;> simp [SyntaxError.term?]

/-- The text has two signs in a row in front. -/
def DoubledSign (text : List Char) : Prop :=
  ∃ (sign next : Sign) (rest : List Char), text = sign.char :: next.char :: rest

/-- What an error says about a text of which `front` is in front of its offset and `back` behind
it. -/
structure Pinpoints (error : SyntaxError) (front back : String) : Prop where
  offset : front.utf8ByteSize = error.offset
  readable : ∃ p, parse front = .ok p
  term : ∀ term ∈ error.term?, term <+: back.toList
  emptyTerm : error.fault = .emptyTerm ↔ ∃ sign : Sign, back.toList = [sign.char]
  doubledSign : DoubledSign back.toList →
    error.fault = .invalid .coefficient (back.toList.take 2)
  /-- All other errors are about the text up to the next sign. Only at the start of the text may it
  have no sign of its own. -/
  segment : error.fault ≠ .emptyTerm → ¬ DoubledSign back.toList →
    ∃ (part : Part) (sign? : Option Sign) (body rest : List Char),
      back.toList = signChars sign? ++ body ++ rest ∧ StartsTerm rest ∧
      body ≠ [] ∧ (∀ c ∈ body, Sign.ofChar? c = none) ∧ (sign? = none → front = "") ∧
      error.fault = .invalid part (signChars sign? ++ body) ∧
      (¬ ∃ term, Grammar.UnsignedTerm body term) ∧ (part = .exponent ↔ ExponentFault body)
  /-- The text behind the term makes no difference. -/
  stable : ∀ term ∈ error.term?, ∀ rest : String, StartsTerm rest.toList →
    parse (front ++ String.ofList term ++ rest) = .error error

theorem pinpoints_of_malformed {error : SyntaxError} {front back : List Char}
    (located : error.offset = byteLength front) (readable : ∃ terms, readTerms front = .ok terms)
    (starts : front = [] ∨ StartsTerm back) (malformed : Malformed back error.fault) :
    Pinpoints error (String.ofList front) (String.ofList back) where
  offset := by rw [utf8ByteSize_ofList, located]
  readable := by
    rw [exists_parse_eq_ok, String.toList_ofList]
    exact readable
  term := by
    intro term member
    obtain ⟨part, fault⟩ := mem_term?_iff.mp member
    rw [fault] at malformed
    rw [String.toList_ofList]
    exact malformed.prefix_of_term.2
  emptyTerm := by
    rw [String.toList_ofList]
    exact malformed.emptyTerm_iff
  doubledSign := by
    rw [String.toList_ofList]
    rintro ⟨sign, next, rest, rfl⟩
    exact malformed.of_doubledSign
  segment := by
    rw [String.toList_ofList]
    obtain ⟨offset, fault⟩ := error
    intro notEmpty notDoubled
    cases malformed with
    | emptyTerm sign => exact absurd rfl notEmpty
    | doubledSign sign next rest => exact absurd ⟨sign, next, rest, rfl⟩ notDoubled
    | @term sign? body rest part plain nonempty ends outside part_iff =>
        refine ⟨part, sign?, body, rest, rfl, ends, nonempty, plain, ?_, rfl, outside, part_iff⟩
        rintro rfl
        refine congrArg String.ofList (starts.resolve_right fun startsBack => ?_)
        obtain ⟨c, body, rfl⟩ := List.exists_cons_of_ne_nil nonempty
        exact startsBack c rfl (plain c List.mem_cons_self)
  stable := by
    intro term member rest ends
    obtain ⟨part, fault⟩ := mem_term?_iff.mp member
    rw [fault] at malformed
    obtain ⟨nonempty, isPrefix⟩ := malformed.prefix_of_term
    have split : (String.ofList front ++ String.ofList term ++ rest).toList =
        front ++ (term ++ rest.toList) := by simp
    have startsAgain : front = [] ∨ StartsTerm (term ++ rest.toList) :=
      starts.imp_right (startsTerm_append_iff nonempty isPrefix rest.toList).mpr
    rw [parse, Traversal.map_eq_error, split]
    exact readTerms_of_malformed located readable startsAgain (fault ▸ malformed.append ends)

/-- An error stands at the first place where the text cannot be read, and says what is wrong
there. -/
theorem pinpoints_of_parse_eq_error {text : String} {error : SyntaxError}
    (failed : parse text = .error error) :
    (String.Pos.Raw.mk error.offset).IsValid text ∧
      ∃ front back, text = front ++ back ∧ Pinpoints error front back := by
  obtain ⟨front, back, split, located, readable, starts, malformed⟩ :=
    exists_malformed_of_readTerms (Traversal.map_eq_error.mp failed)
  have pinpoints := pinpoints_of_malformed located readable starts malformed
  have whole : text = String.ofList front ++ String.ofList back := by
    rw [← String.ofList_append, ← split, String.ofList_toList]
  refine ⟨?_, _, _, whole, pinpoints⟩
  rw [String.Pos.Raw.isValid_iff_exists_append]
  exact ⟨_, _, whole, String.Pos.Raw.ext pinpoints.offset.symm⟩

/-- The exponent of the second term stops at its point. -/
theorem pinpoints_of_parse_eq_error_point :
    parse "x+2x3.5-x" = .error ⟨1, .invalid .exponent "+2x3.5".toList⟩ ∧
      (String.Pos.Raw.mk 1).IsValid "x+2x3.5-x" ∧
      ∃ front back, "x+2x3.5-x" = front ++ back ∧
        Pinpoints ⟨1, .invalid .exponent "+2x3.5".toList⟩ front back := by
  have failed : parse "x+2x3.5-x" = .error ⟨1, .invalid .exponent "+2x3.5".toList⟩ := rfl
  exact ⟨failed, pinpoints_of_parse_eq_error failed⟩

end SparsePolynomial.Text
