import SparsePolynomial.Proofs.Text.Printed
import SparsePolynomial.Proofs.Text.ReadBack
import SparsePolynomial.Storage.Files

/-!
Contract: what is read from a file.

Owns:
- that the newline is the only character with a newline among its bytes, so that the first line of a
  file is cut at a character;
- that white space around visible characters is taken off and nothing else;
- `IgnoresLaterLines` and `ReadsBack`: files with the same first line are read alike, and the text
  of a polynomial is read with any white space around it and anything on later lines;
- `ignoresLaterLines_and_readsBack`, for every polynomial whose text can be read.

The zero polynomial has the empty text: it is read from an empty file and from one whose first line
is blank.
-/

set_option autoImplicit false

namespace SparsePolynomial.Storage

open Text (IsWhiteSpace Visible trim trimEnd trimStart)

/-! ## Bytes -/

theorem encode_ofList (text : List Char) :
    encode (String.ofList text) = text.flatMap String.utf8EncodeChar := by
  simp [encode, List.utf8Encode]

/-- A character of several bytes has only bytes past those of ASCII, so a newline stands for
itself. -/
theorem eq_newline_of_mem_utf8EncodeChar {c : Char} (member : newline ∈ String.utf8EncodeChar c) :
    c = '\n' := by
  have byte {n : Nat} (same : newline = UInt8.ofNat n) : 10 = n % 256 := by
    have value := congrArg UInt8.toNat same
    rwa [UInt8.toNat_ofNat'] at value
  unfold String.utf8EncodeChar at member
  dsimp only at member
  split at member
  · have value := byte (List.mem_singleton.mp member)
    exact Char.toNat_inj.mp (show c.val.toNat = 10 by omega)
  · -- Each byte is a remainder added to at least 128, and no such number is that of the newline.
    exfalso
    split at member
    · simp only [List.mem_cons, List.not_mem_nil, or_false] at member
      rcases member with same | same <;> have value := byte same <;> omega
    · split at member
      · simp only [List.mem_cons, List.not_mem_nil, or_false] at member
        rcases member with same | same | same <;> have value := byte same <;> omega
      · simp only [List.mem_cons, List.not_mem_nil, or_false] at member
        rcases member with same | same | same | same <;> have value := byte same <;> omega

theorem newline_not_mem_encode {text : String} (oneLine : '\n' ∉ text.toList) :
    newline ∉ encode text := by
  rw [← String.ofList_toList (s := text), encode_ofList]
  intro member
  obtain ⟨c, inText, encoded⟩ := List.mem_flatMap.mp member
  exact oneLine (eq_newline_of_mem_utf8EncodeChar encoded ▸ inText)

/-- What follows the first line of a file: nothing, or a newline with any bytes behind it. -/
def behindLine : Option (List UInt8) → List UInt8
  | none => []
  | some tail => newline :: tail

theorem firstLine_append {line : List UInt8} (oneLine : newline ∉ line)
    (tail? : Option (List UInt8)) : firstLine (line ++ behindLine tail?) = line := by
  have inLine : ∀ byte ∈ line, decide (byte ≠ newline) = true := by
    intro byte member
    exact decide_eq_true fun same => oneLine (same ▸ member)
  rw [firstLine, List.takeWhile_append_of_pos inLine]
  cases tail? with
  | none => exact List.append_nil line
  | some tail => rw [behindLine, List.takeWhile_cons_of_neg (by simp), List.append_nil]

/-! ## White space -/

/-- White space other than the newline. -/
def Blank (text : String) : Prop := ∀ c ∈ text.toList, IsWhiteSpace c ∧ c ≠ '\n'

instance (text : String) : Decidable (Blank text) := List.decidableBAll _ text.toList

theorem not_isWhiteSpace_of_visible {c : Char} (visible : Visible c) : ¬ IsWhiteSpace c := by
  have outside : ∀ range ∈ Text.whiteSpaceRanges, range.2 ≤ 32 ∨ 127 ≤ range.1 := by decide
  obtain ⟨above, below⟩ := visible
  rintro ⟨range, member, low, high⟩
  have between := outside range member
  omega

theorem trimStart_append_of_blank {blank : List Char} (isBlank : ∀ c ∈ blank, IsWhiteSpace c)
    (text : List Char) : trimStart (blank ++ text) = trimStart text := by
  rw [trimStart, List.dropWhile_append_of_pos (by simpa using isBlank)]
  rfl

theorem trimStart_of_blank {blank : List Char} (isBlank : ∀ c ∈ blank, IsWhiteSpace c) :
    trimStart blank = [] := by
  have trimmed := trimStart_append_of_blank isBlank []
  rwa [List.append_nil] at trimmed

theorem trimStart_append_of_visible {text : List Char} (visible : ∀ c ∈ text, Visible c)
    (nonempty : text ≠ []) (rest : List Char) : trimStart (text ++ rest) = text ++ rest := by
  obtain ⟨c, text, rfl⟩ := List.exists_cons_of_ne_nil nonempty
  have inked := not_isWhiteSpace_of_visible (visible c List.mem_cons_self)
  rw [List.cons_append, trimStart, List.dropWhile_cons_of_neg (by simpa using inked)]

/-- If the text is empty the white space in front of it and behind it is all one. -/
theorem trim_around {before text after : List Char} (blankBefore : ∀ c ∈ before, IsWhiteSpace c)
    (visible : ∀ c ∈ text, Visible c) (blankAfter : ∀ c ∈ after, IsWhiteSpace c) :
    trim (before ++ text ++ after) = text := by
  rw [trim, List.append_assoc, trimStart_append_of_blank blankBefore]
  by_cases empty : text = []
  · rw [empty, List.nil_append, trimStart_of_blank blankAfter]
    rfl
  · have blankReversed : ∀ c ∈ after.reverse, IsWhiteSpace c :=
      fun c member => blankAfter c (List.mem_reverse.mp member)
    have visibleReversed : ∀ c ∈ text.reverse, Visible c :=
      fun c member => visible c (List.mem_reverse.mp member)
    have trimmed := trimStart_append_of_visible visibleReversed (by simpa using empty) []
    rw [List.append_nil] at trimmed
    rw [trimStart_append_of_visible visible empty, trimEnd, List.reverse_append,
      trimStart_append_of_blank blankReversed, trimmed, List.reverse_reverse]

/-! ## Lines -/

variable {System : Type} [FileSystem System]

/-- The line of a text without newlines, whatever follows it in the file. -/
theorem readLine_of_oneLine {system : System} {name line : String} {tail? : Option (List UInt8)}
    (oneLine : '\n' ∉ line.toList)
    (loaded : FileSystem.load system name = .ok (encode line ++ behindLine tail?)) :
    readLine system name = .ok (String.ofList (trim line.toList)) := by
  rw [readLine_of_load loaded, firstLine_append (newline_not_mem_encode oneLine), decode_encode]
  rfl

/-- Nothing but the first line makes a difference. -/
theorem read_of_firstLine {Other : Type} [FileSystem Other] {system : System} {other : Other}
    {name otherName : String} {bytes otherBytes : List UInt8}
    (loaded : FileSystem.load system name = .ok bytes)
    (otherLoaded : FileSystem.load other otherName = .ok otherBytes)
    (same : firstLine bytes = firstLine otherBytes) : read system name = read other otherName := by
  rw [read, read, readLine_of_load loaded, readLine_of_load otherLoaded, same]

/-! ## Written and read -/

theorem newline_not_mem_chars (p : Polynomial) : '\n' ∉ p.chars :=
  fun member => absurd (p.visible_chars _ member) (by decide)

theorem parseLine_eq_ok {text : String} {p : Polynomial} :
    parseLine text = .ok p ↔ Text.parse text = .ok p := by
  rw [parseLine]
  cases Text.parse text with
  | error error => simp [Except.mapError]
  | ok q => simp [Except.mapError]

theorem parseLine_of_error {text : String} {error : Text.SyntaxError}
    (failed : Text.parse text = .error error) : parseLine text = .error (.malformed error) := by
  rw [parseLine, failed]
  rfl

/-- The text of a polynomial is what is read, with or without white space around it and whatever
stands on later lines. -/
theorem read_of_load {system : System} {name : String} {p : Polynomial} {before after : String}
    (blankBefore : Blank before) (blankAfter : Blank after) {tail? : Option (List UInt8)}
    (loaded : FileSystem.load system name =
      .ok (encode (before ++ p.text ++ after) ++ behindLine tail?)) :
    read system name = parseLine p.text := by
  have chars : (before ++ p.text ++ after).toList = before.toList ++ p.chars ++ after.toList := by
    simp [Polynomial.text]
  have oneLine : '\n' ∉ (before ++ p.text ++ after).toList := by
    rw [chars, List.mem_append, List.mem_append]
    rintro ((inBefore | inText) | inAfter)
    · exact (blankBefore _ inBefore).2 rfl
    · exact newline_not_mem_chars p inText
    · exact (blankAfter _ inAfter).2 rfl
  have trimmed := trim_around (fun c member => (blankBefore c member).1) p.visible_chars
    (fun c member => (blankAfter c member).1)
  rw [read, readLine_of_oneLine oneLine loaded, chars, trimmed]
  rfl

theorem read_of_write {system saved : System} {name : String} {p : Polynomial}
    (written : write system name p = .ok saved) : read saved name = parseLine p.text := by
  have none : Blank "" := by decide
  refine @read_of_load _ _ _ _ _ "" "" none none Option.none ?_
  rw [FileSystem.load_of_save written, String.empty_append, String.append_empty, behindLine,
    List.append_nil]

/-! ## Files -/

/-- Files that agree up to the first newline, and with it, are read alike. -/
def IgnoresLaterLines : Prop :=
  ∀ {System Other : Type} [FileSystem System] [FileSystem Other] (system : System) (other : Other)
    (name otherName : String) (line tail otherTail : List UInt8),
    newline ∉ line → FileSystem.load system name = .ok (line ++ newline :: tail) →
    FileSystem.load other otherName = .ok (line ++ newline :: otherTail) →
    read system name = read other otherName

/-- The polynomial is read from every file with its text on the first line, and from every file that
it has been written to. -/
structure ReadsBack (p : Polynomial) : Prop where
  line : ∀ {System : Type} [FileSystem System] (system : System) (name before after : String)
    (tail? : Option (List UInt8)), Blank before → Blank after →
    FileSystem.load system name = .ok (encode (before ++ p.text ++ after) ++ behindLine tail?) →
    read system name = .ok p
  written : ∀ {System : Type} [FileSystem System] (system : System) (name : String),
    FileSystem.Takes system name →
    ∃ saved, write system name p = .ok saved ∧ read saved name = .ok p

theorem ignoresLaterLines : IgnoresLaterLines := by
  intro _ _ _ _ system other name otherName line tail otherTail oneLine loaded otherLoaded
  have first (tail : List UInt8) : firstLine (line ++ newline :: tail) = line :=
    firstLine_append oneLine (some tail)
  exact read_of_firstLine loaded otherLoaded ((first tail).trans (first otherTail).symm)

theorem readsBack {p : Polynomial} (canonical : p.Canonical) (writable : p.Writable) :
    ReadsBack p := by
  have parsed := parseLine_eq_ok.mpr ((Polynomial.parse_text_eq_ok_iff canonical).mpr writable)
  refine ⟨?_, ?_⟩
  · intro _ _ system name before after tail? blankBefore blankAfter loaded
    rw [read_of_load blankBefore blankAfter loaded, parsed]
  · intro _ _ system name takes
    obtain ⟨saved, written⟩ := takes (encode p.text)
    exact ⟨saved, written, by rw [read_of_write written, parsed]⟩

/-- Only the first line of a file is read, without the white space around it. A polynomial whose
text can be read comes back from every file that has it there. -/
theorem ignoresLaterLines_and_readsBack :
    IgnoresLaterLines ∧ ∀ p : Polynomial, p.Canonical → p.Writable → ReadsBack p :=
  ⟨ignoresLaterLines, fun _ => readsBack⟩

/-- `0.5 - 3 x^4294967295`, with the largest exponent of texts. -/
def lowered : Polynomial := ⟨[⟨0.5, 0⟩, ⟨-3.0, 4294967295⟩]⟩

/-- Its text between an em space and a carriage return. -/
def paddedLine : List UInt8 := encode ("\u2003" ++ lowered.text ++ "\r")

/-- Two files with that line, one of which goes on with a byte that no text has. -/
def paddedStore : Store :=
  ⟨[("p.txt", paddedLine ++ newline :: [0xFF]), ("q.txt", paddedLine ++ newline :: [])]⟩

theorem ignoresLaterLines_and_readsBack_padded :
    lowered.Canonical ∧ lowered.Writable ∧ Blank "\u2003" ∧ Blank "\r" ∧
      newline ∉ paddedLine ∧ read paddedStore "p.txt" = .ok lowered ∧
        read paddedStore "p.txt" = read paddedStore "q.txt" ∧
          ∃ saved, write paddedStore "p.txt" lowered = .ok saved ∧
            read saved "p.txt" = .ok lowered := by
  have canonical : lowered.Canonical := by decide +kernel
  have writable : lowered.Writable := by decide +kernel
  have blank : Blank "\u2003" ∧ Blank "\r" := by decide
  have place : Place.ofName "p.txt" = .file "p.txt" := by decide
  have otherPlace : Place.ofName "q.txt" = .file "q.txt" := by decide
  have loaded : FileSystem.load paddedStore "p.txt" = .ok (paddedLine ++ newline :: [0xFF]) := by
    show paddedStore.load "p.txt" = _
    rw [Store.load, place]
    rfl
  have otherLoaded : FileSystem.load paddedStore "q.txt" = .ok (paddedLine ++ newline :: []) := by
    show paddedStore.load "q.txt" = _
    rw [Store.load, otherPlace]
    rfl
  have oneLine : newline ∉ paddedLine := by
    apply newline_not_mem_encode
    simp [Polynomial.text, newline_not_mem_chars]
  obtain ⟨ignores, comesBack⟩ := ignoresLaterLines_and_readsBack
  have readsBack := comesBack lowered canonical writable
  exact ⟨canonical, writable, blank.1, blank.2, oneLine,
    readsBack.line _ _ _ _ (some [0xFF]) blank.1 blank.2 loaded,
    ignores _ _ _ _ _ _ _ oneLine loaded otherLoaded, readsBack.written _ _ (Store.takes place _)⟩

end SparsePolynomial.Storage
