import SparsePolynomial.Log.Operations
import SparsePolynomial.Proofs.Polynomial.Product
import SparsePolynomial.Proofs.Term.Exponents
import SparsePolynomial.Proofs.Text.Segment

/-!
Contract: the log says what a run has done.

Owns:
- the events of each operation in terms of what it was given and what it returns;
- `FaithfulToText`, `FaithfulToFile` and `FaithfulToProduct`: the entries that reading a text,
  reading a file and multiplying leave behind, with every count and every text in them tied to the
  result.

The counts are lengths of lists on the way to the result, before and after the terms of one exponent
are combined; here each is the number of exponents that it stands for.
-/

set_option autoImplicit false

namespace SparsePolynomial.Log

/-! ## Normalization -/

theorem events_ofTerms (terms : List Term) :
    (ofTerms terms).events =
      [.normalized terms.length (Term.exponentCount terms) (Polynomial.ofTerms terms).length] := by
  rw [← Term.length_combine]
  rfl

theorem length_ofTerms_le (terms : List Term) :
    (Polynomial.ofTerms terms).length ≤ Term.exponentCount terms := by
  rw [← Term.length_combine]
  exact Term.length_dropNegligible_le (Term.combine terms)

/-! ## Texts -/

theorem events_parse_of_ok {text : String} {terms : List Term}
    (computed : Text.readTerms text.toList = .ok terms) :
    (parse text).events =
      [.parsed terms.length, .normalized terms.length (Term.exponentCount terms)
        (Polynomial.ofTerms terms).length] := by
  simp [parse, computed, events_ofTerms]

theorem events_parse_of_error {text : String} {error : Text.SyntaxError}
    (computed : Text.readTerms text.toList = .error error) :
    (parse text).events = [.rejected error] := by
  simp [parse, computed]

/-- The log of reading a text. -/
structure FaithfulToText (text : String) : Prop where
  /-- An accepted text has its terms counted, then their exponents and the terms that are left. -/
  accepted : ∀ p, (parse text).value = .ok p →
    ∃ terms, Text.readTerms text.toList = .ok terms ∧
      terms.length = (Text.Segmentation.ofChars text.toList).segments.length ∧
      (parse text).entries =
        [⟨.debug, "parsed polynomial string", [("terms", .count terms.length)]⟩,
          ⟨.trace, "normalized polynomial terms",
            [("input", .count terms.length), ("unique", .count (Term.exponentCount terms)),
              ("kept", .count p.length)]⟩] ∧
      p.length ≤ Term.exponentCount terms ∧ Term.exponentCount terms ≤ terms.length
  rejected : ∀ error, (parse text).value = .error error →
    (parse text).entries =
      [⟨.debug, "rejected polynomial string", [("err", .text error.message)]⟩]
  rejects_iff : (∃ entry ∈ (parse text).entries, entry.message = "rejected polynomial string") ↔
    ∃ error, (parse text).value = .error error

theorem faithfulToText (text : String) : FaithfulToText text := by
  cases computed : Text.readTerms text.toList with
  | error error =>
      have value : Text.parse text = .error error := by
        rw [Text.parse, computed]
        rfl
      have entries : (parse text).entries =
          [⟨.debug, "rejected polynomial string", [("err", .text error.message)]⟩] := by
        rw [Logged.entries, events_parse_of_error computed]
        rfl
      exact {
        accepted := by simp [value]
        rejected := by simp [value, entries]
        rejects_iff := by simp [value, entries]
      }
  | ok terms =>
      have value : Text.parse text = .ok (.ofTerms terms) := by
        rw [Text.parse, computed]
        rfl
      have entries : (parse text).entries =
          [⟨.debug, "parsed polynomial string", [("terms", .count terms.length)]⟩,
            ⟨.trace, "normalized polynomial terms",
              [("input", .count terms.length), ("unique", .count (Term.exponentCount terms)),
                ("kept", .count (Polynomial.ofTerms terms).length)]⟩] := by
        rw [Logged.entries, events_parse_of_ok computed]
        rfl
      exact {
        accepted := by
          intro p accepted
          rw [value_parse, value] at accepted
          cases accepted
          exact ⟨terms, computed, (Text.length_segments_of_readTerms computed).symm, entries,
            length_ofTerms_le terms, Term.exponentCount_le_length terms⟩
        rejected := by simp [value]
        rejects_iff := by simp [value, entries]
      }

/-! ## Files -/

section Files

open Storage (FileSystem StorageError decode firstLine readLine)

variable {System : Type} [FileSystem System] {system : System} {name : String}

theorem read_of_error {error : StorageError} (failed : readLine system name = .error error) :
    (read system name).value = .error (.storage error) ∧ (read system name).entries = [] := by
  rw [read, failed]
  exact ⟨rfl, rfl⟩

theorem read_of_ok {text : String} (computed : readLine system name = .ok text) :
    (read system name).value = (parse text).value.mapError .malformed ∧
      (read system name).entries =
        ⟨.debug, "reading polynomial", [("path", .text name), ("text", .text text)]⟩ ::
          (parse text).entries := by
  rw [read, computed]
  refine ⟨rfl, ?_⟩
  simp only [Logged.entries, Logged.events_bind, Logged.events_record, Logged.events_pure,
    List.append_nil, List.map_append]
  rfl

/-- The log of reading a file. -/
structure FaithfulToFile (system : System) (name : String) : Prop where
  /-- The first line without the white space around it stands in front of what reading it as a text
  leaves behind. -/
  reading : ∀ bytes line, FileSystem.load system name = .ok bytes →
    decode (firstLine bytes) = .ok line →
    ∃ text : String, text.toList = Text.trim line.toList ∧
      (read system name).value = (parse text).value.mapError .malformed ∧
        (read system name).entries =
          ⟨.debug, "reading polynomial", [("path", .text name), ("text", .text text)]⟩ ::
            (parse text).entries
  notLoaded : ∀ error, FileSystem.load system name = .error error →
    (read system name).value = .error (.storage error) ∧ (read system name).entries = []
  notText : ∀ bytes error, FileSystem.load system name = .ok bytes →
    decode (firstLine bytes) = .error error →
    (read system name).value = .error (.storage error) ∧ (read system name).entries = []
  reads_iff : (∃ entry ∈ (read system name).entries, entry.message = "reading polynomial") ↔
    ∃ bytes line, FileSystem.load system name = .ok bytes ∧ decode (firstLine bytes) = .ok line

theorem faithfulToFile (system : System) (name : String) : FaithfulToFile system name where
  reading bytes line loaded decoded := by
    have computed := Storage.readLine_of_load loaded
    rw [decoded] at computed
    exact ⟨_, String.toList_ofList, read_of_ok computed⟩
  notLoaded error failed := read_of_error (Storage.readLine_of_load_error failed)
  notText bytes error loaded failed := by
    have unread := Storage.readLine_of_load loaded
    rw [failed] at unread
    exact read_of_error unread
  reads_iff := by
    cases loaded : FileSystem.load system name with
    | error error =>
        simp [(read_of_error (Storage.readLine_of_load_error loaded)).2]
    | ok bytes =>
        have computed := Storage.readLine_of_load loaded
        cases decoded : decode (firstLine bytes) with
        | error error =>
            rw [decoded] at computed
            simp [(read_of_error computed).2, decoded]
        | ok line =>
            rw [decoded] at computed
            simp [(read_of_ok computed).2, decoded]

end Files

/-! ## Products -/

variable {p q : Polynomial}

/-- The entry that announces a product. -/
def announcement (strategy : Strategy) (p q : Polynomial) : Entry :=
  ⟨.debug, "multiplying polynomials",
    [("strategy", .text strategy.name), ("lhs_terms", .count p.length),
      ("rhs_terms", .count q.length)]⟩

theorem entries_multiply_of_isZero (strategy : Strategy) (isZero : p.IsZero ∨ q.IsZero) :
    (multiply strategy p q).entries = [] := by
  rw [multiply, if_pos isZero]
  rfl

theorem entries_multiply (strategy : Strategy) (nonzero : ¬ (p.IsZero ∨ q.IsZero)) :
    (multiply strategy p q).entries =
      announcement strategy p q :: (multiplyBy strategy p q).entries := by
  rw [multiply, if_neg nonzero]
  rfl

theorem value_multiply_of_nonzero (strategy : Strategy) (nonzero : ¬ (p.IsZero ∨ q.IsZero)) :
    (multiply strategy p q).value = Polynomial.multiplyBy strategy p q := by
  rw [value_multiply, Polynomial.multiply, if_neg nonzero]

theorem events_multiplyBy_of_error {strategy : Strategy} {overflow : ExponentOverflow}
    (failed : Polynomial.multiplyBy strategy p q = .error overflow) :
    (multiplyBy strategy p q).events = [] := by
  cases strategy with
  | distribute => rfl
  | accumulate =>
      have overflowed : Polynomial.collectedProducts p q = .error overflow :=
        Traversal.map_eq_error.mp failed
      simp [multiplyBy, overflowed, ofTermsOrError]

/-- What `accumulate` normalizes has one term for each exponent already. -/
theorem events_multiplyBy_accumulate {product : Polynomial}
    (computed : Polynomial.multiplyBy .accumulate p q = .ok product) :
    (multiplyBy .accumulate p q).events =
      [.normalized (Term.sumCount p.terms q.terms) (Term.sumCount p.terms q.terms)
        product.length] := by
  obtain ⟨fit, rfl⟩ := (Polynomial.accumulate_eq_ok p q product).mp computed
  have collected := (Polynomial.collectedProducts_eq_ok p q _).mpr ⟨fit, rfl⟩
  have ascending := Term.ascending_sumByExponent (Term.products p.terms q.terms)
  rw [multiplyBy, collected, ofTermsOrError, Logged.events_map, events_ofTerms,
    ascending.exponentCount_eq, Term.length_sumByExponent, Term.exponentCount_products fit]

/-- The log of a product. -/
structure FaithfulToProduct (strategy : Strategy) (p q : Polynomial) : Prop where
  zero : p.IsZero ∨ q.IsZero → (multiply strategy p q).entries = []
  overflow : ¬ (p.IsZero ∨ q.IsZero) →
    ∀ overflow, (multiply strategy p q).value = .error overflow →
      (multiply strategy p q).entries = [announcement strategy p q]
  distributed : ¬ (p.IsZero ∨ q.IsZero) → strategy = .distribute →
    (multiply strategy p q).entries = [announcement strategy p q]
  accumulated : ¬ (p.IsZero ∨ q.IsZero) → strategy = .accumulate →
    ∀ product, (multiply strategy p q).value = .ok product →
      (multiply strategy p q).entries =
        [announcement strategy p q,
          ⟨.trace, "normalized polynomial terms",
            [("input", .count (Term.sumCount p.terms q.terms)),
              ("unique", .count (Term.sumCount p.terms q.terms)),
              ("kept", .count product.length)]⟩]

theorem faithfulToProduct (strategy : Strategy) (p q : Polynomial) :
    FaithfulToProduct strategy p q where
  zero := entries_multiply_of_isZero strategy
  overflow := by
    intro nonzero overflow failed
    rw [value_multiply_of_nonzero strategy nonzero] at failed
    rw [entries_multiply strategy nonzero, Logged.entries, events_multiplyBy_of_error failed]
    rfl
  distributed := by
    rintro nonzero rfl
    exact entries_multiply .distribute nonzero
  accumulated := by
    rintro nonzero rfl product computed
    rw [value_multiply_of_nonzero .accumulate nonzero] at computed
    rw [entries_multiply .accumulate nonzero, Logged.entries,
      events_multiplyBy_accumulate computed]
    rfl

/-! ## All operations -/

/-- The log of a text, of a file and of a product says what has been done and returned. -/
theorem log_faithful :
    (∀ text, FaithfulToText text) ∧
      (∀ {System : Type} [Storage.FileSystem System] (system : System) (name : String),
        FaithfulToFile system name) ∧
        ∀ strategy p q, FaithfulToProduct strategy p q :=
  ⟨faithfulToText, faithfulToFile, faithfulToProduct⟩

end SparsePolynomial.Log
