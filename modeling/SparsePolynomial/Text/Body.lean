import SparsePolynomial.Decimal.Basic
import SparsePolynomial.Term.Basic
import SparsePolynomial.Text.SyntaxError

/-!
Contract: the unsigned part of a term, a decimal coefficient and a power of the variable.

Owns:
- the cut of a body into digits, a point with digits, an `x` with digits, and what is left;
- what each part means: no coefficient in front of an `x` is one, no digits behind it is the first
  power, and no `x` is the power zero;
- which part is at fault. Text left over belongs to the exponent if there is an `x` and to the
  coefficient if there is none, and the coefficient is looked at before the exponent.

Digits are those of ASCII. A coefficient has at least one of them, and a value past the largest
finite number is refused.
-/

set_option autoImplicit false

namespace SparsePolynomial.Text

/-- The largest exponent that can be written in a text. -/
def largestExponent : Nat := 4294967295

/-- The parts of a body in the order of the text. -/
structure Body where
  /-- Digits in front of the point. -/
  whole : List Char
  /-- Digits behind the point, if there is a point. -/
  fraction? : Option (List Char)
  /-- Digits behind the variable, if there is a variable. -/
  exponent? : Option (List Char)
  /-- Whatever could not be read. -/
  leftover : List Char
deriving DecidableEq, Repr

namespace Body

/-- The digits that a text starts with. -/
def digits (text : List Char) : List Char := text.takeWhile Char.isDigit

/-- What follows them. -/
def afterDigits (text : List Char) : List Char := text.dropWhile Char.isDigit

/-- The digits behind a mark, if the text starts with the mark, and what follows. -/
def marked (mark : Char) : List Char → Option (List Char) × List Char
  | [] => (none, [])
  | c :: rest => if c = mark then (some (digits rest), afterDigits rest) else (none, c :: rest)

/-- Cuts a body into its parts, each as long as possible. -/
def ofChars (text : List Char) : Body :=
  let point := marked '.' (afterDigits text)
  let power := marked 'x' point.2
  ⟨digits text, point.1, power.1, power.2⟩

/-- The text of the parts. -/
def chars (body : Body) : List Char :=
  body.whole ++ (body.fraction?.map ('.' :: ·)).getD [] ++
    (body.exponent?.map ('x' :: ·)).getD [] ++ body.leftover

/-- The decimal in front of the variable, if it has a digit. -/
def decimal? (body : Body) : Option Decimal :=
  let fraction := body.fraction?.getD []
  if body.whole ++ fraction = [] then none else some (.ofDigits body.whole fraction)

/-- The coefficient without its sign, if it is valid. -/
def magnitude? (body : Body) : Option Float :=
  if body.whole = [] ∧ body.fraction? = none ∧ body.exponent? ≠ none then some 1.0
  else
    body.decimal?.bind fun decimal =>
      if decimal.rank < Binary64.infinityRank then some decimal.toFloat else none

/-- The power of the variable, if it is in range. -/
def power? (body : Body) : Option UInt64 :=
  match body.exponent? with
  | none => some 0
  | some [] => some 1
  | some digits =>
    let value := Nat.ofDigitChars 10 digits 0
    if value ≤ largestExponent then some (.ofNat value) else none

/-- The term that a body without sign stands for, or the part at fault. -/
def read (body : Body) : Except Part Term :=
  if body.leftover ≠ [] then
    .error (if body.exponent? = none then .coefficient else .exponent)
  else
    match body.magnitude?, body.power? with
    | none, _ => .error .coefficient
    | some _, none => .error .exponent
    | some magnitude, some power => .ok ⟨magnitude, power⟩

theorem digits_append_afterDigits (text : List Char) : digits text ++ afterDigits text = text :=
  List.takeWhile_append_dropWhile

theorem marked_append (mark : Char) (text : List Char) :
    ((marked mark text).1.map (mark :: ·)).getD [] ++ (marked mark text).2 = text := by
  unfold marked
  split
  · rfl
  · split <;> simp_all [digits_append_afterDigits]

/-- Cutting loses nothing. -/
theorem chars_ofChars (text : List Char) : (ofChars text).chars = text := by
  simp only [chars, ofChars, List.append_assoc, marked_append, digits_append_afterDigits]

end Body

end SparsePolynomial.Text
