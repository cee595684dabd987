import SparsePolynomial.Text.SyntaxError

/-!
Contract: the signed segments of a text, one for each term.

Owns:
- cutting a text in front of every sign, which loses nothing;
- the byte offset of each segment, counted in UTF-8;
- the two faults that the cuts alone show: a sign with nothing behind it, and two signs in a row.
  The segments in front of such a fault are kept, those behind it are not.

Does not own: what the body of a segment says (`Text.Body`).
-/

set_option autoImplicit false

namespace SparsePolynomial.Text

/-- The sign in front of a term. -/
inductive Sign where
  | plus
  | minus
deriving DecidableEq, Repr

namespace Sign

def char : Sign → Char
  | plus => '+'
  | minus => '-'

/-- The sign that a character writes. -/
def ofChar? (c : Char) : Option Sign :=
  if c = '+' then some plus else if c = '-' then some minus else none

/-- Puts the sign in front of a magnitude. -/
def apply (sign : Sign) (magnitude : Float) : Float :=
  match sign with
  | plus => magnitude
  | minus => -magnitude

@[simp] theorem ofChar?_char (sign : Sign) : ofChar? sign.char = some sign := by
  cases sign <;> rfl

theorem char_of_ofChar? {c : Char} {sign : Sign} (written : ofChar? c = some sign) :
    sign.char = c := by
  unfold ofChar? at written
  grind [char]

end Sign

/-- The length of a text in UTF-8. -/
def byteLength : List Char → Nat
  | [] => 0
  | c :: rest => c.utf8Size + byteLength rest

/-- The part of a text that one term is written in. -/
structure Segment where
  /-- Bytes of the text in front of the segment. -/
  offset : Nat
  /-- Only the first segment may have no sign. -/
  sign? : Option Sign
  body : List Char
deriving DecidableEq, Repr

namespace Segment

/-- The sign that counts: a segment without one is positive. -/
def sign (segment : Segment) : Sign := segment.sign?.getD .plus

/-- The segment as it stands in the text. -/
def text (segment : Segment) : List Char :=
  (segment.sign?.map Sign.char).toList ++ segment.body

end Segment

/-- The segments of a text, and the fault that ends them, if there is one. -/
structure Segmentation where
  segments : List Segment
  failure? : Option SyntaxError
deriving DecidableEq, Repr

namespace Segmentation

/-- Cuts a text in front of each sign: what stands before the first one, then each sign with what
stands between it and the next. -/
def cut : List Char → List Char × List (Sign × List Char)
  | [] => ([], [])
  | c :: rest =>
    let later := cut rest
    match Sign.ofChar? c with
    | some sign => ([], (sign, later.1) :: later.2)
    | none => (c :: later.1, later.2)

/-- The fault of a sign without a body: at the end of the text it makes an empty term, in front of
another sign both signs stand for a coefficient. -/
def bareSign (sign : Sign) : List (Sign × List Char) → Fault
  | [] => .emptyTerm
  | (next, _) :: _ => .invalid .coefficient [sign.char, next.char]

/-- The signed parts from an offset on, up to the first that has no body. -/
def ofSigned (offset : Nat) : List (Sign × List Char) → Segmentation
  | [] => ⟨[], none⟩
  | (sign, []) :: rest => ⟨[], some ⟨offset, bareSign sign rest⟩⟩
  | (sign, c :: body) :: rest =>
    let segment : Segment := ⟨offset, some sign, c :: body⟩
    let later := ofSigned (offset + byteLength segment.text) rest
    ⟨segment :: later.segments, later.failure?⟩

/-- The segments of a text. -/
def ofChars (text : List Char) : Segmentation :=
  let parts := cut text
  if parts.1 = [] then ofSigned 0 parts.2
  else
    let later := ofSigned (byteLength parts.1) parts.2
    ⟨⟨0, none, parts.1⟩ :: later.segments, later.failure?⟩

/-- Cutting loses nothing. -/
theorem cut_join (text : List Char) :
    (cut text).1 ++ (cut text).2.flatMap (fun part => part.1.char :: part.2) = text := by
  induction text with
  | nil => rfl
  | cons c rest inductionHypothesis =>
      rw [cut]
      cases isSign : Sign.ofChar? c with
      | none => simpa using inductionHypothesis
      | some sign => simpa [Sign.char_of_ofChar? isSign] using inductionHypothesis

end Segmentation

end SparsePolynomial.Text
