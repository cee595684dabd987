import SparsePolynomial.Proofs.Text.Cursor
import SparsePolynomial.Proofs.Text.Pinpoint

/-!
Contract: the segments of a text tile it.

Owns:
- `Covers`, where segments stand from an offset on, with one lemma for a segment put in front of
  others and from it the segments of every text;
- `failure?_ofChars_iff`: there is a fault exactly if the text ends in a sign or has two in a row;
- `Tiles` and `reads_and_tiles`: the items that are read from a text stand in it one behind the
  other, nothing is lost and nothing is read twice.

Offsets count bytes and the text is cut between characters, so every offset is a position of the
text whatever characters stand in it.
-/

set_option autoImplicit false

namespace SparsePolynomial.Text

/-- The text of segments that stand one behind the other. -/
def charsOf (segments : List Segment) : List Char := segments.flatMap Segment.text

@[simp] theorem charsOf_cons (segment : Segment) (segments : List Segment) :
    charsOf (segment :: segments) = segment.text ++ charsOf segments := rfl

@[simp] theorem charsOf_append (before after : List Segment) :
    charsOf (before ++ after) = charsOf before ++ charsOf after := List.flatMap_append

theorem length_le_byteLength (text : List Char) : text.length ≤ byteLength text := by
  induction text with
  | nil => exact Nat.le_refl 0
  | cons c rest inductionHypothesis =>
      have positive := c.utf8Size_pos
      rw [List.length_cons, byteLength]
      omega

theorem length_le_byteLength_charsOf {segments : List Segment}
    (bodies : ∀ segment ∈ segments, segment.body ≠ []) :
    segments.length ≤ byteLength (charsOf segments) := by
  induction segments with
  | nil => exact Nat.le_refl 0
  | cons segment segments inductionHypothesis =>
      obtain ⟨bodyFirst, bodyRest⟩ := List.forall_mem_cons.mp bodies
      have positive : 0 < segment.text.length :=
        List.length_pos_of_ne_nil (List.append_ne_nil_of_right_ne_nil _ bodyFirst)
      have own := length_le_byteLength segment.text
      have later := inductionHypothesis bodyRest
      rw [charsOf_cons, byteLength_append, List.length_cons]
      omega

namespace Segment

theorem text_of_signed {segment : Segment} {sign : Sign} (own : segment.sign? = some sign) :
    segment.text = sign.char :: segment.body ∧ segment.sign = sign := by
  rw [text, Segment.sign, own]
  exact ⟨rfl, rfl⟩

theorem text_of_unsigned {segment : Segment} (own : segment.sign? = none) :
    segment.text = segment.body ∧ segment.sign = .plus := by
  rw [text, Segment.sign, own]
  exact ⟨rfl, rfl⟩

end Segment

namespace Segmentation

/-! ## Segments from an offset on -/

/-- The segments stand in the text one behind the other from an offset on, and the fault stands
behind the last one. -/
structure Covers (segmentation : Segmentation) (offset : Nat) (text : List Char) : Prop where
  offset_eq : ∀ before segment after, segmentation.segments = before ++ segment :: after →
    segment.offset = offset + byteLength (charsOf before)
  body : ∀ segment ∈ segmentation.segments,
    segment.body ≠ [] ∧ ∀ c ∈ segment.body, Sign.ofChar? c = none
  whole : segmentation.failure? = none → charsOf segmentation.segments = text
  failure : ∀ error ∈ segmentation.failure?,
    error.offset = offset + byteLength (charsOf segmentation.segments) ∧
      ∃ back, back ≠ [] ∧ text = charsOf segmentation.segments ++ back

theorem covers_nil (offset : Nat) : Covers ⟨[], none⟩ offset [] where
  offset_eq before segment after impossible := by simp at impossible
  body := nofun
  whole _ := rfl
  failure := nofun

theorem covers_fault (offset : Nat) (fault : Fault) {text : List Char} (nonempty : text ≠ []) :
    Covers ⟨[], some ⟨offset, fault⟩⟩ offset text where
  offset_eq before segment after impossible := by simp at impossible
  body := nofun
  whole := nofun
  failure error found := by
    obtain rfl := Option.mem_some_iff.mp found
    exact ⟨rfl, text, nonempty, rfl⟩

/-- A segment is put in front of those that go on where it ends. -/
theorem Covers.cons {later : Segmentation} {segment : Segment} {text : List Char}
    (covers : later.Covers (segment.offset + byteLength segment.text) text)
    (nonempty : segment.body ≠ []) (plain : ∀ c ∈ segment.body, Sign.ofChar? c = none) :
    Covers ⟨segment :: later.segments, later.failure?⟩ segment.offset (segment.text ++ text) where
  offset_eq before own after parts := by
    cases before with
    | nil =>
        obtain ⟨rfl, _⟩ := List.cons.inj parts
        rfl
    | cons first before =>
        obtain ⟨rfl, others⟩ := List.cons.inj parts
        rw [covers.offset_eq before own after others, charsOf_cons, byteLength_append,
          Nat.add_assoc]
  body := List.forall_mem_cons.mpr ⟨⟨nonempty, plain⟩, covers.body⟩
  whole complete := by rw [charsOf_cons, covers.whole complete]
  failure error found := by
    obtain ⟨located, back, remains, split⟩ := covers.failure error found
    refine ⟨?_, back, remains, ?_⟩
    · rw [located, charsOf_cons, byteLength_append, Nat.add_assoc]
    · rw [charsOf_cons, split, List.append_assoc]

theorem covers_ofSigned (offset : Nat) {parts : List (Sign × List Char)}
    (plain : ∀ part ∈ parts, ∀ c ∈ part.2, Sign.ofChar? c = none) :
    (ofSigned offset parts).Covers offset (join parts) := by
  induction parts generalizing offset with
  | nil => exact covers_nil offset
  | cons part parts inductionHypothesis =>
      obtain ⟨sign, body⟩ := part
      obtain ⟨plainFirst, plainRest⟩ := List.forall_mem_cons.mp plain
      cases body with
      | nil => exact covers_fault offset _ (List.cons_ne_nil _ _)
      | cons c body =>
          exact (inductionHypothesis _ plainRest).cons (List.cons_ne_nil c body) plainFirst

theorem covers_ofChars (text : List Char) : (ofChars text).Covers 0 text := by
  obtain ⟨plainFirst, plainLater⟩ := cut_plain text
  have whole : (cut text).1 ++ join (cut text).2 = text := cut_join text
  rw [ofChars]
  by_cases unsigned : (cut text).1 = []
  · rw [if_pos unsigned]
    have covers := covers_ofSigned 0 plainLater
    rwa [← List.nil_append (join _), ← unsigned, whole] at covers
  · rw [if_neg unsigned]
    have later := covers_ofSigned (0 + byteLength (cut text).1) plainLater
    have covers := @Covers.cons _ ⟨0, none, (cut text).1⟩ _ later unsigned plainFirst
    have split : (Segment.mk 0 none (cut text).1).text ++ join (cut text).2 = text := whole
    rw [split, Nat.zero_add] at covers
    exact covers

theorem Covers.charsOf_prefix {segmentation : Segmentation} {offset : Nat} {text : List Char}
    (covers : segmentation.Covers offset text) : charsOf segmentation.segments <+: text := by
  cases failure : segmentation.failure? with
  | none => exact ⟨[], by rw [List.append_nil, covers.whole failure]⟩
  | some error =>
      obtain ⟨_, back, _, split⟩ := covers.failure error failure
      exact ⟨back, split.symm⟩

/-- Every segment takes at least a byte, and so does what is at fault. -/
theorem Covers.length_items_le {segmentation : Segmentation} {offset : Nat} {text : List Char}
    (covers : segmentation.Covers offset text) :
    segmentation.items.length ≤ byteLength text := by
  have segments := length_le_byteLength_charsOf fun segment member =>
    (covers.body segment member).1
  cases failure : segmentation.failure? with
  | none =>
      rw [← covers.whole failure]
      simpa [items, failure] using segments
  | some error =>
      obtain ⟨_, back, remains, split⟩ := covers.failure error failure
      have own := length_le_byteLength back
      have positive := List.length_pos_of_ne_nil remains
      rw [split, byteLength_append]
      simp only [items, failure, Option.toList_some, List.length_append, List.length_map,
        List.length_singleton]
      omega

/-! ## Signs -/

theorem sign?_ofSigned {offset : Nat} {parts : List (Sign × List Char)} :
    ∀ segment ∈ (ofSigned offset parts).segments, segment.sign? ≠ none := by
  induction parts generalizing offset with
  | nil => exact nofun
  | cons part parts inductionHypothesis =>
      obtain ⟨sign, body⟩ := part
      cases body with
      | nil => exact nofun
      | cons c body =>
          exact List.forall_mem_cons.mpr ⟨Option.some_ne_none sign, inductionHypothesis⟩

/-- Only the first segment may have no sign. -/
theorem sign?_ofChars {text : List Char} {before after : List Segment} {segment : Segment}
    (parts : (ofChars text).segments = before ++ segment :: after)
    (unsigned : segment.sign? = none) : before = [] := by
  rw [ofChars] at parts
  split at parts
  · have member : segment ∈ (ofSigned 0 (cut text).2).segments := by simp [parts]
    exact absurd unsigned (sign?_ofSigned segment member)
  · cases before with
    | nil => rfl
    | cons first before =>
        obtain ⟨_, later⟩ := List.cons.inj parts
        have member : segment ∈ (ofSigned (byteLength (cut text).1) (cut text).2).segments := by
          simp [later]
        exact absurd unsigned (sign?_ofSigned segment member)

/-! ## Faults -/

theorem failure?_ne_none_iff (text : List Char) :
    (ofChars text).failure? ≠ none ↔ ∃ sign, (sign, []) ∈ (cut text).2 := by
  rw [ne_eq, failure?_ofChars, signedBodies]
  by_cases unsigned : (cut text).1 = []
  · simp [unsigned]
  · simp [unsigned]

/-- The text ends in a sign, or has two in a row. -/
def HasBareSign (text : List Char) : Prop :=
  (∃ (front : List Char) (sign : Sign), text = front ++ [sign.char]) ∨
    ∃ (front back : List Char) (sign next : Sign), text = front ++ sign.char :: next.char :: back

/-- A sign has no body if nothing or another sign follows. -/
theorem mem_cut_of_startsTerm (front : List Char) (sign : Sign) {back : List Char}
    (starts : StartsTerm back) : (sign, []) ∈ (cut (front ++ sign.char :: back)).2 := by
  rw [cut_append_of_startsTerm front (startsTerm_sign sign back), cut_sign,
    cut_of_startsTerm starts]
  exact List.mem_append_right _ List.mem_cons_self

theorem failure?_ofChars_iff (text : List Char) :
    (ofChars text).failure? ≠ none ↔ HasBareSign text := by
  rw [failure?_ne_none_iff]
  constructor
  · rintro ⟨sign, member⟩
    obtain ⟨before, after, parts⟩ := List.append_of_mem member
    have split : text = ((cut text).1 ++ join before) ++ sign.char :: join after := by
      calc
        text = (cut text).1 ++ join (cut text).2 := (cut_join text).symm
        _ = (cut text).1 ++ join (before ++ (sign, []) :: after) := by rw [parts]
        _ = _ := by
          rw [join, List.flatMap_append, ← List.append_assoc]
          rfl
    cases after with
    | nil => exact .inl ⟨_, sign, split⟩
    | cons next after => exact .inr ⟨_, next.2 ++ join after, sign, next.1, split⟩
  · rintro (⟨front, sign, rfl⟩ | ⟨front, back, sign, next, rfl⟩)
    · exact ⟨sign, mem_cut_of_startsTerm front sign startsTerm_nil⟩
    · exact ⟨sign, mem_cut_of_startsTerm front sign (startsTerm_sign next back)⟩

end Segmentation

/-! ## All items -/

open Segmentation (HasBareSign)

/-- How the segments of a text stand in it, and where the fault is if there is one. -/
structure Tiles (text : String) (segmentation : Segmentation) : Prop where
  length_le : segmentation.items.length ≤ text.utf8ByteSize
  whole : segmentation.failure? = none → String.ofList (charsOf segmentation.segments) = text
  /-- The segments in front of a fault are the text up to its offset. -/
  front : ∀ error ∈ segmentation.failure?, ∃ back,
    text = String.ofList (charsOf segmentation.segments) ++ back ∧
      (String.ofList (charsOf segmentation.segments)).utf8ByteSize = error.offset
  offset : ∀ before segment after, segmentation.segments = before ++ segment :: after →
    segment.offset = (String.ofList (charsOf before)).utf8ByteSize ∧
      (String.Pos.Raw.mk segment.offset).IsValid text
  body : ∀ segment ∈ segmentation.segments,
    segment.body ≠ [] ∧ '+' ∉ segment.body ∧ '-' ∉ segment.body
  /-- A segment is its sign and its body. Without a sign it is positive, and the first. -/
  sign : ∀ before segment after, segmentation.segments = before ++ segment :: after →
    (∃ sign : Sign, segment.text = sign.char :: segment.body ∧ segment.sign = sign) ∨
      (before = [] ∧ segment.text = segment.body ∧ segment.sign = .plus)
  failure_iff : segmentation.failure? ≠ none ↔ HasBareSign text.toList

theorem isValid_of_prefix {text : String} {front : List Char} (isPrefix : front <+: text.toList) :
    (String.Pos.Raw.mk (byteLength front)).IsValid text := by
  obtain ⟨back, split⟩ := isPrefix
  rw [String.Pos.Raw.isValid_iff_exists_append]
  refine ⟨String.ofList front, String.ofList back, ?_, ?_⟩
  · rw [← String.ofList_append, split, String.ofList_toList]
  · exact String.Pos.Raw.ext (utf8ByteSize_ofList front).symm

theorem not_mem_of_plain {body : List Char} (plain : ∀ c ∈ body, Sign.ofChar? c = none)
    (sign : Sign) : sign.char ∉ body := by
  intro member
  have impossible := plain sign.char member
  rw [Sign.ofChar?_char] at impossible
  cases impossible

theorem tiles_of_covers {text : String}
    (covers : (Segmentation.ofChars text.toList).Covers 0 text.toList) :
    Tiles text (Segmentation.ofChars text.toList) where
  length_le := by
    rw [← String.ofList_toList (s := text), utf8ByteSize_ofList, String.toList_ofList]
    exact covers.length_items_le
  whole complete := by rw [covers.whole complete, String.ofList_toList]
  front error found := by
    obtain ⟨located, back, _, split⟩ := covers.failure error found
    refine ⟨String.ofList back, ?_, ?_⟩
    · rw [← String.ofList_append, ← split, String.ofList_toList]
    · rw [utf8ByteSize_ofList, located, Nat.zero_add]
  offset before segment after parts := by
    have located := covers.offset_eq before segment after parts
    rw [Nat.zero_add] at located
    have isPrefix : charsOf before <+: text.toList := by
      refine List.IsPrefix.trans ?_ covers.charsOf_prefix
      rw [parts, charsOf_append]
      exact List.prefix_append _ _
    rw [located, utf8ByteSize_ofList]
    exact ⟨rfl, isValid_of_prefix isPrefix⟩
  body segment member := by
    obtain ⟨nonempty, plain⟩ := covers.body segment member
    exact ⟨nonempty, not_mem_of_plain plain .plus, not_mem_of_plain plain .minus⟩
  sign before segment after parts := by
    cases own : segment.sign? with
    | some sign => exact .inl ⟨sign, Segment.text_of_signed own⟩
    | none => exact .inr ⟨Segmentation.sign?_ofChars parts own, Segment.text_of_unsigned own⟩
  failure_iff := Segmentation.failure?_ofChars_iff text.toList

/-- Reading a text segment by segment ends, and what has been read tiles the text up to its end or
up to the first sign that has no body. -/
theorem reads_and_tiles (text : String) :
    (∀ items, (Cursor.start text.toList).Reads items ↔
        items = (Segmentation.ofChars text.toList).items) ∧
      Tiles text (Segmentation.ofChars text.toList) :=
  ⟨fun _ => Cursor.reads_iff, tiles_of_covers (Segmentation.covers_ofChars text.toList)⟩

/-- The first segment is one character and two bytes long. -/
example : Segmentation.ofChars ['é', '+', 'x', '-'] =
    ⟨[⟨0, none, ['é']⟩, ⟨2, some .plus, ['x']⟩], some ⟨4, .emptyTerm⟩⟩ := by decide

end SparsePolynomial.Text
