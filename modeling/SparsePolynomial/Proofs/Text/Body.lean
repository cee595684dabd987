import Mathlib.Data.List.TakeWhile
import SparsePolynomial.Decimal.Shortest
import SparsePolynomial.Proofs.Binary64.Parts
import SparsePolynomial.Text.Body
import SparsePolynomial.Text.Printer

/-!
Contract: what a body without sign reads back to.

Owns:
- `Greedy`, the bodies whose parts are each as long as possible, and `ofChars_eq_iff`: a text is cut
  into the one such body that is written so;
- `ofMagnitude`, the body that a finite magnitude and an exponent are written as, and what reading
  it gives;
- the characters of a body that can be read.
-/

set_option autoImplicit false

namespace SparsePolynomial

/-! ## Places -/

theorem Decimal.places_search_pos (r attempts : Nat) {places : Nat} (positive : 0 < places) :
    0 < (search r attempts places).places := by
  induction attempts generalizing places with
  | zero =>
      show 0 < Binary64.halvings
      rw [Binary64.halvings_eq]
      decide
  | succ attempts inductionHypothesis =>
      rw [search]
      cases found : withPlaces? r places with
      | none => exact inductionHypothesis (Nat.succ_pos places)
      | some decimal =>
          have kept : decimal.places = places := by
            simp only [withPlaces?] at found
            split at found
            · split at found <;> cases found <;> rfl
            · split at found <;> cases found
              rfl
          rw [Option.getD_some, kept]
          exact positive

theorem Decimal.places_shortest_pos (r : Nat) : 0 < (shortest r).places := by
  rw [shortest]
  split
  · exact Nat.zero_lt_one
  · exact places_search_pos r _ Nat.zero_lt_one

/-- A run of ASCII digits, which may be empty. -/
def Text.Digits (text : List Char) : Prop := ∀ c ∈ text, c.isDigit = true

namespace Text.Body

/-! ## Digits -/

/-- The text does not go on with a digit. -/
def EndsDigits (rest : List Char) : Prop := ∀ c ∈ rest.head?, c.isDigit = false

theorem digits_of_endsDigits {rest : List Char} (ends : EndsDigits rest) : digits rest = [] := by
  cases rest with
  | nil => rfl
  | cons c rest => rw [digits, List.takeWhile_cons, ends c rfl, if_neg Bool.false_ne_true]

theorem digits_append {run rest : List Char} (allDigits : Digits run)
    (ends : EndsDigits rest) : digits (run ++ rest) = run := by
  have after := digits_of_endsDigits ends
  rw [digits] at after ⊢
  rw [List.takeWhile_append_of_pos allDigits, after, List.append_nil]

theorem afterDigits_append {run rest : List Char} (allDigits : Digits run)
    (ends : EndsDigits rest) : afterDigits (run ++ rest) = rest := by
  have parts := digits_append_afterDigits (run ++ rest)
  rw [digits_append allDigits ends] at parts
  exact List.append_cancel_left parts

theorem endsDigits_nil : EndsDigits [] := nofun

theorem endsDigits_cons {c : Char} (rest : List Char) (notDigit : c.isDigit = false) :
    EndsDigits (c :: rest) := by
  intro first isFirst
  cases isFirst
  exact notDigit

/-! ## Marks -/

/-- The text of a mark with digits, if there is one. -/
def marking (mark : Char) (digits? : Option (List Char)) : List Char :=
  (digits?.map (mark :: ·)).getD []

@[simp] theorem marking_none (mark : Char) : marking mark none = [] := rfl

@[simp] theorem marking_some (mark : Char) (digits : List Char) :
    marking mark (some digits) = mark :: digits := rfl

theorem chars_eq (body : Body) :
    body.chars = body.whole ++
      (marking '.' body.fraction? ++ (marking 'x' body.exponent? ++ body.leftover)) := by
  simp only [chars, marking, List.append_assoc]

theorem endsDigits_marking {mark : Char} (notDigit : mark.isDigit = false)
    (digits? : Option (List Char)) {rest : List Char} (ends : EndsDigits rest) :
    EndsDigits (marking mark digits? ++ rest) := by
  cases digits? with
  | none => exact ends
  | some digits => exact endsDigits_cons _ notDigit

theorem marked_marking {mark : Char} {digits? : Option (List Char)} {rest : List Char}
    (allDigits : ∀ digits ∈ digits?, Digits digits) (ends : EndsDigits rest)
    (noMark : digits? = none → rest.head? ≠ some mark) :
    marked mark (marking mark digits? ++ rest) = (digits?, rest) := by
  cases digits? with
  | none =>
      cases rest with
      | nil => rfl
      | cons c rest => exact if_neg fun same => noMark rfl (congrArg some same)
  | some digits =>
      have run := digits_append (allDigits digits rfl) ends
      have after := afterDigits_append (allDigits digits rfl) ends
      show (if mark = mark then (some (Body.digits (digits ++ rest)), afterDigits (digits ++ rest))
        else (none, mark :: (digits ++ rest))) = _
      rw [if_pos rfl, run, after]

/-! ## Cuts -/

/-- Every part is as long as possible: none could go on with what stands behind it. -/
structure Greedy (body : Body) : Prop where
  whole : Digits body.whole
  fraction : ∀ digits ∈ body.fraction?, Digits digits
  exponent : ∀ digits ∈ body.exponent?, Digits digits
  ends : EndsDigits body.leftover
  noPoint : body.fraction? = none → body.exponent? = none → body.leftover.head? ≠ some '.'
  noVariable : body.exponent? = none → body.leftover.head? ≠ some 'x'

/-- The parts of a body are found again in its text. -/
theorem ofChars_chars {body : Body} (greedy : body.Greedy) : ofChars body.chars = body := by
  obtain ⟨whole, fraction?, exponent?, leftover⟩ := body
  obtain ⟨wholeDigits, fractionDigits, exponentDigits, ends, noPoint, noVariable⟩ := greedy
  have powerEnds : EndsDigits (marking 'x' exponent? ++ leftover) :=
    endsDigits_marking rfl exponent? ends
  have pointEnds := @endsDigits_marking '.' rfl fraction? _ powerEnds
  have noMark (missing : fraction? = none) :
      (marking 'x' exponent? ++ leftover).head? ≠ some '.' := by
    cases exponent? with
    | none => exact noPoint missing rfl
    | some digits => exact fun same => absurd (Option.some.inj same) (by decide)
  have power := marked_marking exponentDigits ends noVariable
  simp only [ofChars, chars_eq, digits_append wholeDigits pointEnds,
    afterDigits_append wholeDigits pointEnds, marked_marking fractionDigits powerEnds noMark,
    power]

theorem isDigit_of_mem_digits {text : List Char} {c : Char} (member : c ∈ digits text) :
    c.isDigit = true :=
  List.mem_takeWhile_imp member

theorem isDigit_of_mem_marked {mark : Char} {text run : List Char}
    (found : (marked mark text).1 = some run) {c : Char} (member : c ∈ run) :
    c.isDigit = true := by
  cases text with
  | nil => cases found
  | cons first rest =>
      rw [marked] at found
      split at found
      · cases found
        exact isDigit_of_mem_digits member
      · cases found

theorem endsDigits_afterDigits (text : List Char) : EndsDigits (afterDigits text) := by
  intro c first
  have stops := List.head?_dropWhile_not Char.isDigit text
  rw [← afterDigits, Option.mem_def.mp first] at stops
  exact stops

theorem endsDigits_marked (mark : Char) {text : List Char} (ends : EndsDigits text) :
    EndsDigits (marked mark text).2 := by
  cases text with
  | nil => exact ends
  | cons c rest =>
      rw [marked]
      split
      · exact endsDigits_afterDigits rest
      · exact ends

theorem marked_of_none {mark : Char} {text : List Char} (missing : (marked mark text).1 = none) :
    (marked mark text).2 = text ∧ text.head? ≠ some mark := by
  cases text with
  | nil => exact ⟨rfl, (Option.some_ne_none mark).symm⟩
  | cons c rest =>
      rw [marked] at missing ⊢
      split at missing
      · cases missing
      · rename_i different
        rw [if_neg different]
        exact ⟨rfl, fun same => different (Option.some.inj same)⟩

theorem greedy_ofChars (text : List Char) : (ofChars text).Greedy where
  whole _ member := isDigit_of_mem_digits member
  fraction _ found _ member := isDigit_of_mem_marked found member
  exponent _ found _ member := isDigit_of_mem_marked found member
  ends := endsDigits_marked 'x' (endsDigits_marked '.' (endsDigits_afterDigits text))
  noPoint noFraction noExponent := by
    have point := marked_of_none noFraction
    have power := marked_of_none noExponent
    show (marked 'x' (marked '.' (afterDigits text)).2).2.head? ≠ some '.'
    rw [power.1, point.1]
    exact point.2
  noVariable noExponent := by
    have power := marked_of_none noExponent
    show (marked 'x' (marked '.' (afterDigits text)).2).2.head? ≠ some 'x'
    rw [power.1]
    exact power.2

/-- A text is cut into the one greedy body that is written so. -/
theorem ofChars_eq_iff {text : List Char} {body : Body} :
    ofChars text = body ↔ body.Greedy ∧ body.chars = text := by
  constructor
  · rintro rfl
    exact ⟨greedy_ofChars text, chars_ofChars text⟩
  · rintro ⟨greedy, rfl⟩
    exact ofChars_chars greedy

/-! ## Characters -/

/-- The characters that a term without sign is written with. -/
def Allowed (c : Char) : Prop := c.isDigit = true ∨ c = '.' ∨ c = 'x'

theorem mem_marking {mark c : Char} {digits? : Option (List Char)}
    (member : c ∈ marking mark digits?) : c = mark ∨ ∃ run, digits? = some run ∧ c ∈ run := by
  cases digits? with
  | none => cases member
  | some run =>
      rcases List.mem_cons.mp member with same | later
      · exact .inl same
      · exact .inr ⟨run, rfl, later⟩

theorem leftover_of_read {body : Body} {term : Term} (computed : body.read = .ok term) :
    body.leftover = [] := by
  by_contra remains
  rw [read, if_pos remains] at computed
  cases computed

/-- A text of which nothing is left over is written with the characters of terms alone. -/
theorem allowed_of_leftover {text : List Char} (nothingLeft : (ofChars text).leftover = []) :
    ∀ c ∈ text, Allowed c := by
  have parts : text = digits text ++ marking '.' (ofChars text).fraction? ++
      marking 'x' (ofChars text).exponent? := by
    have whole := chars_ofChars text
    rw [chars, nothingLeft, List.append_nil] at whole
    exact whole.symm
  intro c member
  rw [parts] at member
  rcases List.mem_append.mp member with front | power
  · rcases List.mem_append.mp front with whole | point
    · exact .inl (isDigit_of_mem_digits whole)
    · rcases mem_marking point with same | ⟨run, found, digit⟩
      · exact .inr (.inl same)
      · exact .inl (isDigit_of_mem_marked found digit)
  · rcases mem_marking power with same | ⟨run, found, digit⟩
    · exact .inr (.inr same)
    · exact .inl (isDigit_of_mem_marked found digit)

/-! ## Printed terms -/

/-- What a finite magnitude and an exponent are written as. -/
def ofMagnitude (r : Nat) (exponent : UInt64) : Body where
  whole := (Decimal.shortest r).whole
  fraction? := some (Decimal.shortest r).fraction
  exponent? := if exponent = 0 then none else some (Nat.toDigits 10 exponent.toNat)
  leftover := []

theorem decimal?_ofMagnitude (r : Nat) (exponent : UInt64) :
    (ofMagnitude r exponent).decimal? = some (Decimal.shortest r) := by
  have nonempty : (Decimal.shortest r).whole ++ (Decimal.shortest r).fraction ≠ [] :=
    List.append_ne_nil_of_left_ne_nil (Decimal.whole_ne_nil _) _
  exact (if_neg nonempty).trans
    (congrArg some (Decimal.ofDigits_whole_fraction (Decimal.places_shortest_pos r)))

theorem magnitude?_ofMagnitude {r : Nat} (finite : r < Binary64.infinityRank)
    (exponent : UInt64) : (ofMagnitude r exponent).magnitude? = some (Binary64.ofRank r) := by
  have readsBack := Decimal.rank_shortest (Nat.le_of_lt finite)
  rw [magnitude?, if_neg (fun implied => absurd implied.2.1 nofun), decimal?_ofMagnitude,
    Option.bind_some, if_pos (readsBack.symm ▸ finite), Decimal.toFloat, readsBack]

theorem power?_ofMagnitude (r : Nat) (exponent : UInt64) :
    (ofMagnitude r exponent).power? =
      if exponent.toNat ≤ largestExponent then some exponent else none := by
  by_cases zero : exponent = 0
  · subst zero
    rfl
  · have written : (ofMagnitude r exponent).exponent? = some (Nat.toDigits 10 exponent.toNat) :=
      if_neg zero
    have nonempty : Nat.toDigits 10 exponent.toNat ≠ [] := Nat.toDigits_ne_nil
    rw [power?, written]
    cases digits : Nat.toDigits 10 exponent.toNat with
    | nil => exact absurd digits nonempty
    | cons c rest =>
        show (if _ then some (UInt64.ofNat _) else none) = _
        rw [← digits, Nat.ofDigitChars_ten_toDigits, UInt64.ofNat_toNat]

theorem read_ofMagnitude {r : Nat} (finite : r < Binary64.infinityRank) (exponent : UInt64) :
    (ofMagnitude r exponent).read =
      if exponent.toNat ≤ largestExponent then .ok ⟨Binary64.ofRank r, exponent⟩
      else .error .exponent := by
  have nothingLeft : ¬ (ofMagnitude r exponent).leftover ≠ [] := not_not_intro rfl
  rw [read, if_neg nothingLeft, magnitude?_ofMagnitude finite, power?_ofMagnitude]
  by_cases small : exponent.toNat ≤ largestExponent
  · rw [if_pos small, if_pos small]
  · rw [if_neg small, if_neg small]

/-- The text of a printed term is found again as its parts. -/
theorem ofChars_ofMagnitude (r : Nat) (exponent : UInt64) :
    ofChars ((Decimal.shortest r).text ++ ofPower exponent) = ofMagnitude r exponent := by
  have text : (Decimal.shortest r).text ++ ofPower exponent = (ofMagnitude r exponent).chars := by
    have power : ofPower exponent =
        ((ofMagnitude r exponent).exponent?.map ('x' :: ·)).getD [] := by
      unfold ofPower ofMagnitude
      split <;> rfl
    rw [power, chars]
    exact (List.append_nil _).symm
  rw [text]
  apply ofChars_chars
  exact {
    whole := fun c member => Decimal.isDigit_of_mem_whole member
    fraction := by
      rintro digits ⟨⟩ c member
      exact Decimal.isDigit_of_mem_fraction member
    exponent := by
      intro digits found c member
      change (if exponent = 0 then none else some _) = some digits at found
      split at found
      · cases found
      · cases found
        exact Nat.isDigit_of_mem_toDigits (by decide) (by decide) member
    ends := endsDigits_nil
    noPoint := fun _ _ => (Option.some_ne_none '.').symm
    noVariable := fun _ => (Option.some_ne_none 'x').symm
  }

end Text.Body

end SparsePolynomial
