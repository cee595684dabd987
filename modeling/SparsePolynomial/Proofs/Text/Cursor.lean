import SparsePolynomial.Proofs.Text.Malformed

/-!
Contract: the segments of a text, read one after the other.

Owns:
- `Cursor`, a text and what is left of it, with `next?`, which takes the next segment off the front
  or reports a sign without a body, after which nothing is left;
- `Reads`, the items that come until there are no more;
- `reads_iff`: the items of a text are its segments, followed by the fault in the cuts if there is
  one.

A cursor stores no offset. It takes it from the lengths of the text and of what is left, which is
right as long as what is left is the end of the text.
-/

set_option autoImplicit false

namespace SparsePolynomial.Text

/-- What one step of reading gives: a segment, or a fault. -/
abbrev Item : Type := Except SyntaxError Segment

/-- The segments in their order, and behind them the fault. -/
def Segmentation.items (segmentation : Segmentation) : List Item :=
  segmentation.segments.map .ok ++ segmentation.failure?.toList.map .error

/-- A text and what is left of it to be read. -/
structure Cursor where
  text : List Char
  rest : List Char

namespace Cursor

/-- In front of a text. -/
def start (text : List Char) : Cursor := ⟨text, text⟩

/-- The number of bytes that have been read. -/
def offset (cursor : Cursor) : Nat := byteLength cursor.text - byteLength cursor.rest

/-- The sign that a text starts with, if it does, and what follows. -/
def leadingSign : List Char → Option Sign × List Char
  | [] => (none, [])
  | c :: rest =>
    match Sign.ofChar? c with
    | some sign => (some sign, rest)
    | none => (none, c :: rest)

/-- An optional sign, the characters up to the next sign, and what is left from there on. -/
def leadingParts (text : List Char) : Option Sign × List Char × List Char :=
  let signed := leadingSign text
  (signed.1, signed.2.takeWhile fun c => Sign.ofChar? c = none,
    signed.2.dropWhile fun c => Sign.ofChar? c = none)

/-- The fault of a text that has no body behind its first sign. -/
def missingBody : List Char → Fault
  | first :: second :: _ =>
    match Sign.ofChar? first, Sign.ofChar? second with
    | some _, some _ => .invalid .coefficient [first, second]
    | _, _ => .emptyTerm
  | _ => .emptyTerm

/-- The next item and the cursor behind it; a fault leaves nothing to be read. -/
def next? (cursor : Cursor) : Option (Item × Cursor) :=
  if cursor.rest = [] then none
  else
    match leadingParts cursor.rest with
    | (_, [], _) => some (.error ⟨cursor.offset, missingBody cursor.rest⟩, ⟨cursor.text, []⟩)
    | (sign?, c :: body, rest) =>
      some (.ok ⟨cursor.offset, sign?, c :: body⟩, ⟨cursor.text, rest⟩)

/-- These items are read, and then there are no more. -/
inductive Reads : Cursor → List Item → Prop where
  | done {cursor : Cursor} (ended : cursor.next? = none) : Reads cursor []
  | item {cursor later : Cursor} {first : Item} {items : List Item}
      (next : cursor.next? = some (first, later)) (more : Reads later items) :
      Reads cursor (first :: items)

/-! ## One item -/

/-- What is left is the end of the text, so the lengths tell what stands in front of it. -/
theorem offset_eq {cursor : Cursor} {front : List Char}
    (split : cursor.text = front ++ cursor.rest) : cursor.offset = byteLength front := by
  rw [offset, split, byteLength_append, Nat.add_sub_cancel]

theorem leadingSign_append {sign? : Option Sign} {body rest : List Char}
    (plain : ∀ c ∈ body, Sign.ofChar? c = none) (unsigned : sign? = none → body ≠ []) :
    leadingSign (signChars sign? ++ body ++ rest) = (sign?, body ++ rest) := by
  cases sign? with
  | some sign =>
      show leadingSign (sign.char :: (body ++ rest)) = _
      rw [leadingSign, Sign.ofChar?_char]
  | none =>
      obtain ⟨c, body, rfl⟩ := List.exists_cons_of_ne_nil (unsigned rfl)
      show leadingSign (c :: (body ++ rest)) = _
      rw [leadingSign, plain c List.mem_cons_self]
      rfl

/-- A text that is put together from a sign, a body and what can stand behind them is taken apart
again. -/
theorem leadingParts_append {sign? : Option Sign} {body rest : List Char}
    (plain : ∀ c ∈ body, Sign.ofChar? c = none) (unsigned : sign? = none → body ≠ [])
    (ends : StartsTerm rest) :
    leadingParts (signChars sign? ++ body ++ rest) = (sign?, body, rest) := by
  have inside : ∀ c ∈ body, decide (Sign.ofChar? c = none) = true := by simpa using plain
  have nothing : rest.takeWhile (fun c => Sign.ofChar? c = none) = [] ∧
      rest.dropWhile (fun c => Sign.ofChar? c = none) = rest := by
    cases rest with
    | nil => exact ⟨rfl, rfl⟩
    | cons c rest =>
        have sign : ¬ decide (Sign.ofChar? c = none) = true := by simpa using ends c rfl
        exact ⟨List.takeWhile_cons_of_neg sign, List.dropWhile_cons_of_neg sign⟩
  rw [leadingParts, leadingSign_append plain unsigned]
  dsimp only
  rw [List.takeWhile_append_of_pos inside, List.dropWhile_append_of_pos inside, nothing.1,
    nothing.2, List.append_nil]

/-- A body, with or without a sign, is read up to the next sign. -/
theorem next?_segment {cursor : Cursor} {front : List Char} {sign? : Option Sign}
    {body rest : List Char} (split : cursor.text = front ++ cursor.rest)
    (left : cursor.rest = signChars sign? ++ body ++ rest)
    (plain : ∀ c ∈ body, Sign.ofChar? c = none) (nonempty : body ≠ []) (ends : StartsTerm rest) :
    cursor.next? = some (.ok ⟨byteLength front, sign?, body⟩, ⟨cursor.text, rest⟩) := by
  have more : cursor.rest ≠ [] := by simp [left, nonempty]
  have parts := @leadingParts_append sign? _ _ plain (fun _ => nonempty) ends
  rw [next?, if_neg more, offset_eq split, left, parts]
  obtain ⟨c, body, rfl⟩ := List.exists_cons_of_ne_nil nonempty
  rfl

theorem missingBody_sign (sign : Sign) (parts : List (Sign × List Char)) :
    missingBody (sign.char :: Segmentation.join parts) = Segmentation.bareSign sign parts := by
  cases parts with
  | nil => rfl
  | cons part parts =>
      show missingBody (sign.char :: part.1.char :: _) = _
      simp only [missingBody, Sign.ofChar?_char]
      rfl

/-- A sign that the text ends with, or that stands in front of another one, ends the reading. -/
theorem next?_bareSign {cursor : Cursor} {front : List Char} {sign : Sign}
    {parts : List (Sign × List Char)} (split : cursor.text = front ++ cursor.rest)
    (left : cursor.rest = sign.char :: Segmentation.join parts) :
    cursor.next? = some (.error ⟨byteLength front, Segmentation.bareSign sign parts⟩,
      ⟨cursor.text, []⟩) := by
  have noBody : leadingParts (sign.char :: Segmentation.join parts) =
      (some sign, [], Segmentation.join parts) :=
    @leadingParts_append (some sign) [] _ nofun nofun (Segmentation.startsTerm_join parts)
  rw [next?, if_neg (by simp [left]), offset_eq split, left, noBody, missingBody_sign]

/-! ## All items -/

theorem Reads.unique {cursor : Cursor} {items others : List Item} (reads : cursor.Reads items)
    (again : cursor.Reads others) : items = others := by
  induction reads generalizing others with
  | done ended =>
      cases again with
      | done _ => rfl
      | item next _ => simp [ended] at next
  | item next _ inductionHypothesis =>
      cases again with
      | done ended => simp [ended] at next
      | item other more =>
          obtain ⟨rfl, rfl⟩ := Prod.mk.inj (Option.some.inj (next.symm.trans other))
          rw [inductionHypothesis more]

theorem reads_nil (text : List Char) : Reads ⟨text, []⟩ [] := .done (if_pos rfl)

/-- Each signed part is one item, up to the first that has no body. -/
theorem reads_ofSigned {cursor : Cursor} {front : List Char} {parts : List (Sign × List Char)}
    (plain : ∀ part ∈ parts, ∀ c ∈ part.2, Sign.ofChar? c = none)
    (split : cursor.text = front ++ cursor.rest) (left : cursor.rest = Segmentation.join parts) :
    cursor.Reads (Segmentation.ofSigned (byteLength front) parts).items := by
  induction parts generalizing cursor front with
  | nil => exact .done (if_pos left)
  | cons part parts inductionHypothesis =>
      obtain ⟨sign, body⟩ := part
      obtain ⟨plainFirst, plainRest⟩ := List.forall_mem_cons.mp plain
      cases body with
      | nil => exact .item (next?_bareSign split left) (reads_nil cursor.text)
      | cons c body =>
          have parted : cursor.rest =
              signChars (some sign) ++ (c :: body) ++ Segmentation.join parts := left
          have ends := Segmentation.startsTerm_join parts
          refine .item (next?_segment split parted plainFirst (List.cons_ne_nil c body) ends) ?_
          have later := @inductionHypothesis ⟨cursor.text, Segmentation.join parts⟩
            (front ++ (sign.char :: c :: body)) plainRest (by simp [split, parted, signChars]) rfl
          rwa [byteLength_append] at later

/-- The items of a text are its segments and the fault that ends them. -/
theorem reads_iff {text : List Char} {items : List Item} :
    (start text).Reads items ↔ items = (Segmentation.ofChars text).items := by
  obtain ⟨plainFirst, plainLater⟩ := Segmentation.cut_plain text
  have whole : (Segmentation.cut text).1 ++ Segmentation.join (Segmentation.cut text).2 = text :=
    Segmentation.cut_join text
  have reads : (start text).Reads (Segmentation.ofChars text).items := by
    rw [Segmentation.ofChars]
    by_cases unsigned : (Segmentation.cut text).1 = []
    · rw [if_pos unsigned]
      rw [unsigned, List.nil_append] at whole
      exact @reads_ofSigned _ [] _ plainLater rfl whole.symm
    · rw [if_neg unsigned]
      have ends := Segmentation.startsTerm_join (Segmentation.cut text).2
      refine .item (@next?_segment _ [] none _ _ rfl whole.symm plainFirst unsigned ends) ?_
      exact reads_ofSigned plainLater whole.symm rfl
  exact ⟨fun others => others.unique reads, fun same => same ▸ reads⟩

end Cursor

end SparsePolynomial.Text
